import ModuleForge.Proofs.Reported
import ModuleForge.Transpile

/-!
# What is recorded of code that is passed on

Code that is passed on without a task is searched for calls of `require`. A generated call stands on a
line of its own, which no call before it can reach into, so that each of them is found. What is
recorded is the text between the quotes, where escapes are still in place.

- `Scan.requiresBehind_append`: what is found from the start of a line on is found behind any text.
- `Scan.mem_requiresBehind`: a generated call is found on its line.
- `Statement.exists_line`: a synthesized statement is printed at the start of a line.
- `Transpiler.transpile_records`: each module that an item of the source loads is recorded as it is
  written in the generated code.
-/

namespace ModuleForge

open Text

namespace Scan

variable {d : Dependency} {cs rest : List Char}

/-! ## Calls -/

theorem eq_append_of_after? {start : List Char} (h : after? start cs = some rest) :
    cs = start ++ rest := by
  unfold after? at h
  split at h
  · rename_i hstart
    obtain ⟨tail, rfl⟩ := List.isPrefixOf_iff_prefix.1 hstart
    simpa using h
  · cases h

/-- The text between two quotes ends at the first quote. -/
theorem quoted?_eq_some {quote : Char} {oneLine : Bool} {inside : List Char}
    (h : quoted? quote oneLine cs = some (inside, rest)) :
    cs = inside ++ quote :: rest ∧ (oneLine = true → '\n' ∉ inside) := by
  unfold quoted? at h
  have hsplit := List.takeWhile_append_dropWhile
    (p := fun c => c != quote && !(oneLine && c == '\n')) (l := cs)
  have hinside : ∀ c ∈ cs.takeWhile fun c => c != quote && !(oneLine && c == '\n'),
      (c != quote && !(oneLine && c == '\n')) = true := fun c hc =>
    List.mem_takeWhile_imp (p := fun c => c != quote && !(oneLine && c == '\n')) hc
  generalize (cs.takeWhile fun c => c != quote && !(oneLine && c == '\n')) = taken at *
  generalize (cs.dropWhile fun c => c != quote && !(oneLine && c == '\n')) = left at hsplit
  obtain rfl := hsplit
  simp only [List.drop_left] at h
  split at h
  · cases h
  · split at h
    · rename_i c tail hc
      obtain ⟨rfl, rfl⟩ := Prod.mk.inj (Option.some.inj h)
      obtain rfl : c = quote := by simpa using hc
      exact ⟨rfl, fun hone hmem => by simpa [hone] using hinside _ hmem⟩
    · cases h

theorem quoted?_append {quote : Char} {oneLine : Bool} {inside : List Char}
    (hquote : quote ∉ inside) (hfeed : '\n' ∉ inside) (rest : List Char) :
    quoted? quote oneLine (inside ++ quote :: rest) = some (inside, rest) := by
  have htake : (inside ++ quote :: rest).takeWhile
      (fun c => c != quote && !(oneLine && c == '\n')) = inside := by
    rw [List.takeWhile_append_of_pos]
    · simp
    · intro c hc
      have h1 : c ≠ quote := fun h => hquote (h ▸ hc)
      have h2 : c ≠ '\n' := fun h => hfeed (h ▸ hc)
      simp [h1, h2]
  simp only [quoted?, htake, List.drop_left, beq_self_eq_true, if_true]

/-- The argument of a call stands between two quotes, on one line unless it is a template. -/
theorem argument?_eq_some (h : argument? cs = some (d, rest)) :
    ∃ quote inside, cs = quote :: (inside ++ quote :: rest) ∧
      (quote = '`' ∨ (quote = '"' ∨ quote = '\'') ∧ '\n' ∉ inside) := by
  unfold argument? at h
  split at h
  · obtain ⟨⟨inside, tail⟩, hq, heq⟩ := Option.map_eq_some_iff.1 h
    obtain ⟨hcs, hfeed⟩ := quoted?_eq_some hq
    cases heq
    exact ⟨_, inside, by rw [hcs], .inr ⟨.inl rfl, hfeed rfl⟩⟩
  · obtain ⟨⟨inside, tail⟩, hq, heq⟩ := Option.map_eq_some_iff.1 h
    obtain ⟨hcs, hfeed⟩ := quoted?_eq_some hq
    cases heq
    exact ⟨_, inside, by rw [hcs], .inr ⟨.inr rfl, hfeed rfl⟩⟩
  · obtain ⟨⟨inside, tail⟩, hq, heq⟩ := Option.map_eq_some_iff.1 h
    obtain ⟨hcs, -⟩ := quoted?_eq_some hq
    cases heq
    exact ⟨_, inside, by rw [hcs], .inl rfl⟩
  · cases h

/-- **The parts of a call.** -/
theorem requireCall?_eq_some {after : List Char} (h : requireCall? cs = some (d, after)) :
    ∃ afterWord inside quote argument behind, cs = "require".toList ++ afterWord ∧
      afterWord.dropWhile isBlank = '(' :: inside ∧
      inside.dropWhile isBlank = quote :: (argument ++ quote :: behind) ∧
      (quote = '`' ∨ (quote = '"' ∨ quote = '\'') ∧ '\n' ∉ argument) ∧
      behind.dropWhile isBlank = ')' :: after := by
  simp only [requireCall?, Option.bind_eq_bind] at h
  obtain ⟨afterWord, h1, h⟩ := Option.bind_eq_some_iff.1 h
  obtain ⟨inside, h2, h⟩ := Option.bind_eq_some_iff.1 h
  obtain ⟨⟨d', behind⟩, h3, h⟩ := Option.bind_eq_some_iff.1 h
  obtain ⟨after', h4, h⟩ := Option.bind_eq_some_iff.1 h
  cases h
  obtain ⟨quote, argument, hargument, hquote⟩ := argument?_eq_some h3
  exact ⟨afterWord, inside, quote, argument, behind, eq_append_of_after? h1,
    eq_append_of_after? h2, hargument, hquote, eq_append_of_after? h4⟩

theorem length_lt_of_requireCall? {after : List Char} (h : requireCall? cs = some (d, after)) :
    after.length < cs.length := by
  obtain ⟨afterWord, inside, quote, argument, behind, rfl, h1, h2, -, h3⟩ := requireCall?_eq_some h
  have hle1 := Token.length_dropWhile_le isBlank afterWord
  have hle2 := Token.length_dropWhile_le isBlank inside
  have hle3 := Token.length_dropWhile_le isBlank behind
  rw [h1] at hle1
  rw [h2] at hle2
  rw [h3] at hle3
  simp only [List.length_cons, List.length_append] at *
  omega

theorem requiresBehind_cons (c : Char) (rest : List Char) :
    requiresBehind (c :: rest) =
      if separates c then
        match requireCall? rest with
        | some (d, after) => d :: requiresBehind after
        | none => requiresBehind rest
      else requiresBehind rest := by
  rw [requiresBehind]
  cases hcall : requireCall? rest with
  | none => rfl
  | some found =>
    obtain ⟨d, after⟩ := found
    have := length_lt_of_requireCall? hcall
    simp only [if_pos (show after.length < rest.length + 1 by omega)]

/-- The search starts as if a line ended before the text. -/
theorem requires_eq (source : String) :
    requires source = (requiresBehind ('\n' :: source.toList)).eraseDups := by
  rw [requiresBehind_cons, if_pos (by decide +kernel)]
  rfl

/-! ## Lines -/

/-- A call with a template argument stands here, up to the opening quote. -/
def startsTemplateCall (cs : List Char) : Bool :=
  (after? "require".toList cs).any fun rest =>
    (after? ['('] (rest.dropWhile isBlank)).any fun rest =>
      (rest.dropWhile isBlank).head? == some '`'

/-- A call with a template argument stands somewhere in the text. -/
def hasTemplateCall : List Char → Bool
  | [] => false
  | c :: rest => startsTemplateCall (c :: rest) || hasTemplateCall rest

theorem hasTemplateCall_append {xs ys : List Char} (h : hasTemplateCall (xs ++ ys) = false) :
    hasTemplateCall ys = false := by
  induction xs with
  | nil => exact h
  | cons x xs ih =>
    simp only [List.cons_append, hasTemplateCall, Bool.or_eq_false_iff] at h
    exact ih h.2

theorem startsTemplateCall_of_has (h : hasTemplateCall cs = false) :
    startsTemplateCall cs = false := by
  cases cs with
  | nil => rfl
  | cons c cs =>
    simp only [hasTemplateCall, Bool.or_eq_false_iff] at h
    exact h.1

/-- What a line starts with that goes on with no call of the line before. -/
def StartsFresh (line : List Char) : Prop :=
  ∀ c, line.head? = some c → isBlank c = false ∧ c ∉ ['(', ')', '"', '\'', '`']

theorem append_cut {xs line word rest : List Char} (h : xs ++ '\n' :: line = word ++ rest)
    (hword : '\n' ∉ word) : ∃ xs', xs = word ++ xs' ∧ rest = xs' ++ '\n' :: line := by
  rcases List.append_eq_append_iff.1 h with ⟨more, rfl, hmore⟩ | ⟨more, rfl, rfl⟩
  · cases more with
    | nil => exact ⟨[], by simp, by simpa using hmore.symm⟩
    | cons c more =>
      obtain ⟨rfl, -⟩ := List.cons.inj hmore
      exact absurd (by simp) hword
  · exact ⟨more, rfl, rfl⟩

/-- Blanks do not lead into a line that starts afresh. -/
theorem dropWhile_cut {xs line : List Char} {c : Char} (hline : StartsFresh line)
    (h : (xs ++ '\n' :: line).dropWhile isBlank = c :: rest) (hc : c ∈ ['(', ')', '"', '\'', '`']) :
    ∃ xs', rest = xs' ++ '\n' :: line ∧ c :: xs' <:+ xs := by
  rw [List.dropWhile_append] at h
  split at h
  · -- Only blanks are left of the line, so the next one would have to start with `c`.
    rw [List.dropWhile_cons_of_pos (by decide)] at h
    cases line with
    | nil => cases h
    | cons d line =>
      obtain ⟨hblank, hd⟩ := hline d rfl
      rw [List.dropWhile_cons_of_neg (by simp [hblank])] at h
      obtain ⟨rfl, -⟩ := List.cons.inj h
      exact absurd hc hd
  · have hsuffix := List.dropWhile_suffix isBlank (l := xs)
    cases hxs : xs.dropWhile isBlank with
    | nil => simp_all
    | cons d xs' =>
      rw [hxs] at h hsuffix
      obtain ⟨rfl, rfl⟩ := List.cons.inj h
      exact ⟨xs', rfl, hsuffix⟩

/-- **A call that starts before a line ends before it**, if the line starts afresh and the call has no
template. -/
theorem requireCall?_cut {xs line after : List Char} (hline : StartsFresh line)
    (htemplate : startsTemplateCall (xs ++ '\n' :: line) = false)
    (h : requireCall? (xs ++ '\n' :: line) = some (d, after)) :
    ∃ xs', after = xs' ++ '\n' :: line ∧ ')' :: xs' <:+ xs := by
  obtain ⟨afterWord, inside, quote, argument, behind, h1, h2, h3, hquote, h4⟩ :=
    requireCall?_eq_some h
  have hnot : quote ≠ '`' := by
    rintro rfl
    simp [startsTemplateCall, h1, after?, h2, h3] at htemplate
  obtain ⟨hquote, hargument⟩ := hquote.resolve_left hnot
  have hmem : quote ∈ ['(', ')', '"', '\'', '`'] := by rcases hquote with rfl | rfl <;> decide
  obtain ⟨xs1, rfl, rfl⟩ := append_cut h1 (by decide)
  obtain ⟨xs2, rfl, hxs2⟩ := dropWhile_cut hline h2 (by decide)
  obtain ⟨xs3, hinside, hxs3⟩ := dropWhile_cut hline h3 hmem
  have hbreak : '\n' ∉ argument ++ [quote] := by
    have hne : quote ≠ '\n' := by rcases hquote with rfl | rfl <;> decide
    simp [hargument, hne.symm]
  obtain ⟨xs4, rfl, rfl⟩ :=
    @append_cut _ _ (argument ++ [quote]) _ (by simpa using hinside.symm) hbreak
  obtain ⟨xs5, rfl, hxs5⟩ := dropWhile_cut hline h4 (by decide)
  refine ⟨xs5, rfl, ?_⟩
  -- Each part is what is left of the one before it.
  have hbehind : xs4 <:+ xs2 := ((List.suffix_append _ _).trans (List.suffix_cons _ _)).trans hxs3
  have hword : xs2 <:+ xs1 := (List.suffix_cons _ _).trans hxs2
  exact ((hxs5.trans hbehind).trans hword).trans (List.suffix_append _ _)

/-- **What is found from a line on is found behind any text.** -/
theorem requiresBehind_append {line : List Char} (hline : StartsFresh line) (xs : List Char)
    (htemplate : hasTemplateCall (xs ++ '\n' :: line) = false) {d : Dependency}
    (hd : d ∈ requiresBehind ('\n' :: line)) : d ∈ requiresBehind (xs ++ '\n' :: line) := by
  cases xs with
  | nil => exact hd
  | cons c xs =>
    have htail := @hasTemplateCall_append [c] _ htemplate
    have hrest := requiresBehind_append hline xs htail hd
    rw [List.cons_append, requiresBehind_cons]
    split
    · split
      · rename_i found after hcall
        obtain ⟨xs', rfl, front, rfl⟩ :=
          requireCall?_cut hline (startsTemplateCall_of_has htail) hcall
        have hafter : hasTemplateCall (xs' ++ '\n' :: line) = false :=
          @hasTemplateCall_append (front ++ [')']) _ (by simpa using htail)
        have hlength : xs'.length < (c :: (front ++ ')' :: xs')).length := by
          simp only [List.length_cons, List.length_append]
          omega
        exact List.mem_cons_of_mem _ (requiresBehind_append hline xs' hafter hd)
      · exact hrest
    · exact hrest
termination_by xs.length

/-! ## Generated calls -/

theorem hexDigit_ne {n : Nat} (h : n < 16) : hexDigit n ∉ ['\n', '"', '('] := by
  revert n
  decide

/-- No line ends between the quotes, and a quote or a parenthesis stands there for itself only. -/
theorem mem_quoteChar {c d : Char} (h : d ∈ quoteChar c) :
    d ≠ '\n' ∧ (d = '"' ∨ d = '(' → c = d) := by
  have hplain (hd : d ∉ ['\n', '"', '(']) : d ≠ '\n' ∧ (d = '"' ∨ d = '(' → c = d) := by
    simp only [List.mem_cons, List.not_mem_nil, or_false, not_or] at hd
    exact ⟨hd.1, fun h => absurd h (not_or.2 hd.2)⟩
  have hquoted := quotedAs_quoteChar c
  generalize quoteChar c = text at h hquoted
  cases hquoted with
  | letter he =>
    have htable : ∀ x ∈ letterEscapes, x.2 ≠ '\n' ∧ (x.2 = '"' ∨ x.2 = '(' → x.1 = x.2) := by decide
    rcases List.mem_cons.1 h with rfl | h
    · exact hplain (by decide)
    · rw [List.mem_singleton.1 h]
      exact htable _ he
  | control hsmall =>
    have h1 := hexDigit_ne (show c.toNat / 16 < 16 by omega)
    have h2 := hexDigit_ne (show c.toNat % 16 < 16 by omega)
    simp only [List.mem_cons, List.not_mem_nil, or_false] at h
    rcases h with rfl | rfl | rfl | rfl | rfl | rfl
    · exact hplain (by decide)
    · exact hplain (by decide)
    · exact hplain (by decide)
    · exact hplain (by decide)
    · exact hplain h1
    · exact hplain h2
  | plain hquote hslash hspace =>
    obtain rfl := List.mem_singleton.1 h
    refine ⟨?_, fun _ => rfl⟩
    rintro rfl
    exact absurd hspace (by decide)

theorem mem_quoteChars {d : Char} (h : d ∈ quoteChars cs) :
    d ≠ '\n' ∧ (d = '"' ∨ d = '(' → d ∈ cs) := by
  induction cs with
  | nil => cases h
  | cons c cs ih =>
    rcases List.mem_append.1 h with h | h
    · obtain ⟨h1, h2⟩ := mem_quoteChar h
      exact ⟨h1, fun hd => by simp [h2 hd]⟩
    · exact ⟨(ih h).1, fun hd => List.mem_cons_of_mem _ ((ih h).2 hd)⟩

/-- What is recorded of a generated call: the specifier as it is written between its quotes. -/
def recorded (specifier : String) : String :=
  String.ofList (quoteChars specifier.toList)

theorem requireCall_append (specifier : String) (rest : List Char) :
    CommonJs.requireCall specifier ++ rest =
      "require".toList ++ '(' :: '"' :: (quoteChars specifier.toList ++ '"' :: ')' :: rest) := by
  have hword : "require(".toList = "require".toList ++ ['('] := by decide
  unfold CommonJs.requireCall CommonJs.literal quote
  rw [hword]
  generalize "require".toList = word
  simp

/-- **A generated call is found where it starts.** -/
theorem requireCall?_requireCall {specifier : String} (h : '"' ∉ specifier.toList)
    (rest : List Char) :
    requireCall? (CommonJs.requireCall specifier ++ rest) =
      some ({ path := recorded specifier }, rest) := by
  have hquote : '"' ∉ quoteChars specifier.toList := fun hmem =>
    h ((mem_quoteChars hmem).2 (.inl rfl))
  have hfeed : '\n' ∉ quoteChars specifier.toList := fun hmem => (mem_quoteChars hmem).1 rfl
  have hread : argument? ('"' :: (quoteChars specifier.toList ++ '"' :: ')' :: rest)) =
      some ({ path := recorded specifier }, ')' :: rest) := by
    simp only [argument?, quoted?_append hquote hfeed, Option.map_some]
    rfl
  have hopen : isBlank '(' = false := by decide
  have hmark : isBlank '"' = false := by decide
  have hclose : isBlank ')' = false := by decide
  rw [requireCall_append]
  simp [requireCall?, after?, hopen, hmark, hclose, hread]

/-- No call starts in a text without parentheses and ends behind it. -/
theorem requireCall?_eq_none {text : List Char} (hopen : '(' ∉ text) (hlength : 7 < text.length)
    (hlast : ∀ c, text.getLast? = some c → isBlank c = false) (rest : List Char) :
    requireCall? (text ++ '(' :: rest) = none := by
  cases hcall : requireCall? (text ++ '(' :: rest) with
  | none => rfl
  | some found =>
    obtain ⟨d, after⟩ := found
    obtain ⟨afterWord, inside, -, -, -, hword, hinside, -⟩ := requireCall?_eq_some hcall
    obtain ⟨more, rfl, rfl⟩ : ∃ more, text = "require".toList ++ more ∧
        afterWord = more ++ '(' :: rest := by
      rcases List.append_eq_append_iff.1 hword with ⟨more, hmore, -⟩ | ⟨more, rfl, rfl⟩
      · have hseven : "require".toList.length = 7 := by decide
        rw [hmore, List.length_append] at hseven
        omega
      · exact ⟨more, rfl, rfl⟩
    -- Something of the text is left behind the word, and its last character is no blank.
    have hne : more ≠ [] := by
      rintro rfl
      exact absurd hlength (by decide)
    rw [List.getLast?_append, List.getLast?_eq_some_getLast hne, Option.some_or] at hlast
    have hblank := hlast _ rfl
    cases hdrop : more.dropWhile isBlank with
    | nil =>
      rw [List.dropWhile_eq_nil_iff.1 hdrop _ (List.getLast_mem hne)] at hblank
      cases hblank
    | cons c tail =>
      rw [List.dropWhile_append, hdrop] at hinside
      obtain ⟨rfl, -⟩ := List.cons.inj hinside
      have hmem : '(' ∈ more := (List.dropWhile_sublist isBlank).subset (by rw [hdrop]; simp)
      exact absurd (List.mem_append_right _ hmem) hopen

/-- **A generated call is found** behind a text without parentheses that ends where a name can
start. -/
theorem mem_requiresBehind {specifier : String} (h : '"' ∉ specifier.toList) {text : List Char}
    (hopen : '(' ∉ text) (hlast : text.getLast?.any separates = true) (rest : List Char) :
    { path := recorded specifier } ∈
      requiresBehind (text ++ (CommonJs.requireCall specifier ++ rest)) := by
  induction text with
  | nil => cases hlast
  | cons c text ih =>
    obtain ⟨hc, htext⟩ := not_or.1 (mt List.mem_cons.2 hopen)
    rw [List.cons_append, requiresBehind_cons]
    cases text with
    | nil =>
      rw [if_pos (by simpa using hlast), List.nil_append, requireCall?_requireCall h]
      exact List.mem_cons_self
    | cons c' text =>
      have hnone : requireCall? (c' :: text ++ (CommonJs.requireCall specifier ++ rest)) = none := by
        rw [requireCall_append, ← List.append_assoc]
        refine requireCall?_eq_none ?_ ?_ ?_ _
        · exact fun hmem => (List.mem_append.1 hmem).elim htext (by decide)
        · have hseven : "require".toList.length = 7 := by decide
          simp only [List.length_append, List.length_cons, hseven]
          omega
        · intro d hd
          have hlast : "require".toList.getLast? = some 'e' := by decide
          rw [List.getLast?_append, hlast, Option.some_or] at hd
          obtain rfl := Option.some.inj hd
          decide
      have hrest := ih htext (by simpa using hlast)
      rw [hnone]
      split <;> exact hrest

end Scan

/-! ## Lines of generated code -/

/-- **A synthesized statement is printed at the start of a line.** -/
theorem Statement.exists_line {src : List Char} {ss : List Statement} {last : Option Char}
    {text line : List Char} {st : Statement} (hprint : printFrom? src last ss = some text)
    (hst : st ∈ ss) (hsynth : st.isSynthesized = true) (hline : st.print? src = some line) :
    ∃ before after, text = before ++ line ++ after ∧
      (before = [] ∧ last.all (· == '\n') ∨ before.getLast? = some '\n') := by
  induction ss generalizing last text with
  | nil => cases hst
  | cons s ss ih =>
    simp only [printFrom?, Option.bind_eq_bind] at hprint
    obtain ⟨own, hown, hprint⟩ := Option.bind_eq_some_iff.1 hprint
    obtain ⟨tail, htail, hprint⟩ := Option.bind_eq_some_iff.1 hprint
    obtain rfl := Option.some.inj hprint
    rcases List.mem_cons.1 hst with rfl | hst
    · obtain rfl := Option.some.inj (hown.symm.trans hline)
      by_cases hlast : last.any (· != '\n') = true
      · exact ⟨['\n'], tail, by simp [hsynth, hlast], .inr rfl⟩
      · refine ⟨[], tail, by simp [hlast], .inl ⟨rfl, ?_⟩⟩
        cases last <;> simp_all
    · generalize (if s.isSynthesized && last.any (· != '\n') then '\n' :: own else own) = own'
        at htail ⊢
      obtain ⟨before, after, rfl, hbefore⟩ := ih htail hst
      refine ⟨own' ++ before, after, by simp, ?_⟩
      rcases hbefore with ⟨rfl, hlast⟩ | hlast
      · cases hown' : own'.getLast? with
        | none =>
          obtain rfl := List.getLast?_eq_none_iff.1 hown'
          exact .inl ⟨rfl, by simpa using hlast⟩
        | some c =>
          rw [hown', Option.some_or] at hlast
          exact .inr (by simpa [hown'] using hlast)
      · exact .inr (by rw [List.getLast?_append, hlast, Option.some_or])

namespace CommonJs

variable {st : Statement} {specifier : String}

theorem not_mem_of_isIdentifierName {name : String} (h : isIdentifierName name = true) :
    '(' ∉ name.toList := by
  intro hmem
  have := Token.isIdentifierPart_of_isPlain (isPlain_of_isIdentifierName h) _ hmem
  revert this
  decide +kernel

theorem not_mem_member {name : String} (h : '(' ∉ name.toList) :
    '(' ∉ member "exports" name := by
  unfold member
  split
  · simp [h]
  · have hquoted : '(' ∉ quoteChars name.toList := fun hmem =>
      h ((Scan.mem_quoteChars hmem).2 (.inr rfl))
    simp [literal, quote, hquoted]

/-- A statement whose text ends with a call that loads the module. -/
inductive Calls (specifier : String) : Statement → Prop
  | bare : Calls specifier (.require none specifier)
  | bound {binding : String} : isIdentifierName binding = true →
      Calls specifier (.require (some binding) specifier)
  | exported {name : String} : '(' ∉ name.toList →
      Calls specifier (.exportAssign name (.require specifier))

/-- **Its text**: nothing with parentheses stands before the call. -/
theorem Calls.print? (h : Calls specifier st) (src : List Char) :
    ∃ before, st.print? src = some (before ++ requireCall specifier ++ [';']) ∧ '(' ∉ before ∧
      (before = [] ∨ before.getLast? = some ' ') ∧
      ∀ rest, Scan.StartsFresh (before ++ requireCall specifier ++ rest) := by
  have hfresh {c : Char} (hc : isBlank c = false ∧ c ∉ ['(', ')', '"', '\'', '`']) (cs : List Char) :
      Scan.StartsFresh (c :: cs) := by
    intro d hd
    rwa [← Option.some.inj hd]
  cases h with
  | bare =>
    refine ⟨[], rfl, by simp, .inl rfl, fun rest => ?_⟩
    rw [List.nil_append, Scan.requireCall_append]
    exact hfresh (by decide) _
  | @bound binding hbinding =>
    refine ⟨varEquals binding, rfl, ?_, .inr ?_, fun rest => hfresh (c := 'v') (by decide) _⟩
    · simp only [varEquals, List.mem_append, not_or]
      exact ⟨⟨by decide, not_mem_of_isIdentifierName hbinding⟩, by decide⟩
    · have hlast : " = ".toList.getLast? = some ' ' := by decide
      rw [varEquals, List.getLast?_append, hlast, Option.some_or]
  | @exported name hname =>
    have hlast : " = ".toList.getLast? = some ' ' := by decide
    refine ⟨member "exports" name ++ " = ".toList, by simp [Statement.print?, Expr.print?], ?_,
      .inr (by rw [List.getLast?_append, hlast, Option.some_or]), fun rest => ?_⟩
    · rw [List.mem_append, not_or]
      exact ⟨not_mem_member hname, by decide⟩
    · unfold member
      split <;> exact hfresh (c := 'e') (by decide) _

theorem translate_calls (h : st.loaded? = some specifier)
    (hname : ∀ source name span, st = .exportAll ⟨source, some name, span⟩ → '(' ∉ name.text.toList)
    (c : Carry) : ∃ call ∈ (translate c st).1, Calls specifier call := by
  have hbinding := ((isBindingName_bindingBase specifier).fresh c.names).1
  cases st with
  | importFrom decl =>
    obtain ⟨specifiers, literal | _, span⟩ := decl
    · obtain rfl := Option.some.inj h
      cases specifiers with
      | nil => exact ⟨_, List.mem_singleton_self _, .bare⟩
      | cons spec specifiers => exact ⟨_, List.mem_cons_self, .bound hbinding⟩
    · cases h
  | exportAll decl =>
    obtain ⟨literal | _, asName, span⟩ := decl
    · obtain rfl := Option.some.inj h
      cases asName with
      | none => exact ⟨_, List.mem_append_right _ List.mem_cons_self, .bound hbinding⟩
      | some name =>
        exact ⟨_, List.mem_append_right _ List.mem_cons_self, .exported (hname _ _ _ rfl)⟩
    · cases h
  | exportNamed decl =>
    obtain ⟨specifiers, _ | literal | _, span⟩ := decl
    · cases h
    · obtain rfl := Option.some.inj h
      exact ⟨_, List.mem_append_right _ List.mem_cons_self, .bound hbinding⟩
    · cases h
  | _ => cases h

theorem mem_translateAll {ss : List Statement} (h : st ∈ ss) (c : Carry) :
    ∃ c', ∀ image ∈ (translate c' st).1, image ∈ (translateAll c ss).1 := by
  induction ss generalizing c with
  | nil => cases h
  | cons s ss ih =>
    rcases List.mem_cons.1 h with rfl | h
    · exact ⟨c, fun image hi => List.mem_append_left _ hi⟩
    · obtain ⟨c', hc'⟩ := ih h (translate c s).2
      exact ⟨c', fun image hi => List.mem_append_right _ (hc' image hi)⟩

/-- **The CommonJS form of a source calls for each module that an item loads**, at the start of a
line. -/
theorem ofSource_calls {source code : String} {p : Program} (hparse : Grammar.parse source = .ok p)
    (hcode : ofSource source = .ok code) (hst : st ∈ p.statements) (h : st.loaded? = some specifier)
    (hname : ∀ source name span, st = .exportAll ⟨source, some name, span⟩ → '(' ∉ name.text.toList) :
    ∃ before call line after, Calls specifier call ∧ call.print? source.toList = some line ∧
      code.toList = before ++ line ++ after ∧ (before = [] ∨ before.getLast? = some '\n') := by
  obtain ⟨q, hq, hgen⟩ := ofSource_eq_ok_iff.1 hcode
  obtain rfl := Except.ok.inj (hq.symm.trans hparse)
  obtain ⟨ss, hlists, hcovers⟩ := Grammar.parse_covers hparse
  rw [hlists.statements] at hst
  have himage : ∃ call ∈ moduleImage (.ofTokens (Token.scan source)) ss, Calls specifier call := by
    obtain ⟨c, hc⟩ := mem_translateAll hst { names := .ofTokens (Token.scan source) }
    obtain ⟨call, hmem, hcall⟩ := translate_calls h hname c
    exact ⟨call, by simp [moduleImage, hc call hmem], hcall⟩
  have hlower : ListsSome (fun ss => ∃ call ∈ ss, Calls specifier call)
      (lower (Token.scan source) q) := by
    refine lower_lists hlists hcovers.keywordInside _ himage ?_
    rintro xs ys s s' t - - - hinsert ⟨call, hmem, hcall⟩
    -- A call carries no text of the source, so that nothing is inserted into it.
    have hne : call ≠ s := by
      rintro rfl
      cases hcall <;> cases hinsert
    simp only [List.mem_append, List.mem_cons, hne, false_or] at hmem
    exact ⟨call, by simpa using hmem.imp_right .inr, hcall⟩
  obtain ⟨ss', hlists', call, hmem, hcall⟩ := hlower
  rw [Program.generate?, hlists'.statements] at hgen
  obtain ⟨text, hprint, -⟩ := hcall.print? source.toList
  obtain ⟨before, after, hcodeText, hbefore⟩ :=
    Statement.exists_line hgen hmem (by cases hcall <;> rfl) hprint
  exact ⟨before, call, _, after, hcall, hprint, hcodeText, hbefore.imp_left (·.1)⟩

end CommonJs

/-! ## The recorded modules -/

namespace Transpile.Context

variable {x : String}

theorem mem_addOnce {items : List String} {item : String} :
    x ∈ addOnce items item ↔ x ∈ items ∨ x = item := by
  unfold addOnce
  split
  · rename_i h
    have hmem : item ∈ items := by simpa using h
    exact ⟨.inl, fun hx => hx.elim id fun hx => hx ▸ hmem⟩
  · simp

theorem mem_register {c : Context} (d : Dependency) (h : x ∈ c.dependencies) :
    x ∈ (c.register d).dependencies := by
  unfold register
  split
  · exact h
  · exact mem_addOnce.2 (.inl h)

/-- **All dependencies that are no globs are recorded**, and nothing that was recorded is lost. -/
theorem mem_registerAll {ds : List Dependency} {c : Context}
    (h : x ∈ c.dependencies ∨ { path := x } ∈ ds) : x ∈ (c.registerAll ds).dependencies := by
  induction ds generalizing c with
  | nil => exact h.resolve_right (by simp)
  | cons d ds ih =>
    refine ih ?_
    rcases h with h | h
    · exact .inl (mem_register d h)
    · rcases List.mem_cons.1 h with rfl | h
      · exact .inl (mem_addOnce.2 (.inr rfl))
      · exact .inr h

end Transpile.Context

namespace Scan

theorem quoteChar_eq_self {c : Char} :
    quoteChar c = [c] ↔ c ≠ '"' ∧ c ≠ '\\' ∧ 0x20 ≤ c.toNat := by
  have hquoted := quotedAs_quoteChar c
  generalize quoteChar c = text at hquoted ⊢
  cases hquoted with
  | letter hd =>
    have htable : ∀ x ∈ letterEscapes, x.1 ≠ '"' → x.1 ≠ '\\' → x.1.toNat < 0x20 := by decide
    constructor
    · intro h
      cases h
    · rintro ⟨hquote, hslash, hspace⟩
      exact absurd hspace (Nat.not_le_of_lt (htable _ hd hquote hslash))
  | control hsmall =>
    constructor
    · intro h
      cases h
    · rintro ⟨-, -, hspace⟩
      exact absurd hspace (Nat.not_le_of_lt hsmall)
  | plain hquote hslash hspace => exact ⟨fun _ => ⟨hquote, hslash, hspace⟩, fun _ => rfl⟩

theorem length_quoteChar (c : Char) : 0 < (quoteChar c).length := by
  have hquoted := quotedAs_quoteChar c
  generalize quoteChar c = text at hquoted ⊢
  cases hquoted <;> exact Nat.succ_pos _

theorem length_quoteChars (cs : List Char) : cs.length ≤ (quoteChars cs).length := by
  induction cs with
  | nil => exact Nat.le_refl _
  | cons c cs ih =>
    have := length_quoteChar c
    simp only [quoteChars, List.length_append, List.length_cons]
    omega

theorem quoteChars_eq_self {cs : List Char} :
    quoteChars cs = cs ↔ ∀ c ∈ cs, quoteChar c = [c] := by
  induction cs with
  | nil => simp [quoteChars]
  | cons c cs ih =>
    rw [List.forall_mem_cons, ← ih, quoteChars]
    constructor
    · -- An escape would make the text longer.
      intro h
      have hlength := congrArg List.length h
      have hc := length_quoteChar c
      have hcs := length_quoteChars cs
      simp only [List.length_append, List.length_cons] at hlength
      have hone : (quoteChar c).length = 1 := by omega
      obtain ⟨d, hd⟩ := List.length_eq_one_iff.1 hone
      rw [hd] at h ⊢
      obtain ⟨rfl, hrest⟩ := List.cons.inj h
      exact ⟨rfl, hrest⟩
    · rintro ⟨hc, hcs⟩
      rw [hc, hcs, List.singleton_append]

/-- **A specifier is recorded as it is** exactly where nothing in it is escaped. -/
theorem recorded_eq_self {specifier : String} :
    recorded specifier = specifier ↔
      ∀ c ∈ specifier.toList, c ≠ '"' ∧ c ≠ '\\' ∧ 0x20 ≤ c.toNat := by
  have hchars : recorded specifier = specifier ↔
      quoteChars specifier.toList = specifier.toList := by
    rw [← String.toList_inj, recorded, String.toList_ofList]
  rw [hchars, quoteChars_eq_self]
  exact forall₂_congr fun c _ => quoteChar_eq_self

/-- **A generated call is recorded**, if no call with a template can reach over it. -/
theorem mem_requires {code specifier : String} {before after line : List Char} {call : Statement}
    {src : List Char} (hcall : CommonJs.Calls specifier call) (hline : call.print? src = some line)
    (hcode : code.toList = before ++ line ++ after)
    (hbefore : before = [] ∨ before.getLast? = some '\n')
    (hquote : '"' ∉ specifier.toList) (htemplate : hasTemplateCall code.toList = false) :
    { path := recorded specifier } ∈ requires code := by
  obtain ⟨text, hprint, hopen, hlast, hfresh⟩ := hcall.print? src
  obtain rfl := Option.some.inj (hprint.symm.trans hline)
  have hmem := @mem_requiresBehind specifier hquote ('\n' :: text) (by simp [hopen])
    (by rcases hlast with rfl | hlast <;> simp [List.getLast?_cons, *] <;> decide +kernel)
    (';' :: after)
  rw [requires_eq, List.mem_eraseDups, hcode]
  rcases hbefore with rfl | hbefore
  · simpa using hmem
  · obtain ⟨front, rfl⟩ : ∃ front, before = front ++ ['\n'] := by
      exact ⟨_, (List.dropLast_append_getLast? _ hbefore).symm⟩
    have hall : hasTemplateCall ('\n' :: code.toList) = false := by
      simp only [hasTemplateCall, htemplate, Bool.or_false]
      rfl
    have hfound := requiresBehind_append (hfresh (';' :: after)) ('\n' :: front)
      (by simpa [hcode] using hall) (by simpa using hmem)
    simpa using hfound

end Scan

namespace Transpiler

theorem occursIn_of_isPrefixOf {part text : List Char} (h : part.isPrefixOf text = true) :
    occursIn part text = true := by
  cases text with
  | nil => simpa [occursIn] using h
  | cons c text => simp [occursIn, h]

/-- **What is recorded of an installed module that is passed on.** -/
theorem transpile_records {t : Transpiler} {c : Transpile.Context} {source code : String}
    {p : Program} (hroot : t.dependencyRoot.toList.isPrefixOf c.path.toList = true)
    (hmodule : Scan.isModule source = true) (hparse : Grammar.parse source = .ok p)
    (hcode : CommonJs.ofSource source = .ok code) (hlook : Scan.needsTranspile code = false)
    (htemplate : Scan.hasTemplateCall code.toList = false) {st : Statement}
    (hst : st ∈ p.statements) {specifier : String} (hloaded : st.loaded? = some specifier)
    (hquote : '"' ∉ specifier.toList)
    (hname : ∀ source name span, st = .exportAll ⟨source, some name, span⟩ →
      '(' ∉ name.text.toList) :
    (t.transpile source c).1 = .ok code ∧
      Scan.recorded specifier ∈ (t.transpile source c).2.dependencies ∧
      (Scan.recorded specifier = specifier ↔
        ∀ c ∈ specifier.toList, c ≠ '\\' ∧ 0x20 ≤ c.toNat) := by
  have hprepare : t.prepare c.path source = code := by
    simp [prepare, occursIn_of_isPrefixOf hroot, hmodule, hcode]
  have hpass : t.passesThrough c code = true := by simp [passesThrough, hlook, hroot]
  have htranspile : t.transpile source c = (.ok code, c.registerAll (Scan.requires code)) := by
    simp only [transpile, hprepare, hpass, if_true]
  obtain ⟨before, call, line, after, hcall, hline, htext, hbefore⟩ :=
    CommonJs.ofSource_calls hparse hcode hst hloaded hname
  refine ⟨by rw [htranspile], ?_, ?_⟩
  · rw [htranspile]
    exact Transpile.Context.mem_registerAll
      (.inr (Scan.mem_requires hcall hline htext hbefore hquote htemplate))
  · rw [Scan.recorded_eq_self]
    exact forall₂_congr fun d hd => and_iff_right fun h => hquote (h ▸ hd)

/-- An installed module, one of whose specifiers has a backslash. -/
def installedSource : String :=
  "import \"./b.js\";\nexport * as ns from 'c\\\\d';"

theorem transpile_records_backslash :
    ∃ p code st, Grammar.parse installedSource = .ok p ∧
      CommonJs.ofSource installedSource = .ok code ∧ st ∈ p.statements ∧
      st.loaded? = some "c\\d" ∧
      (transpile {} installedSource (.ofPath "/node_modules/a.js")).1 = .ok code ∧
      Scan.recorded "c\\d" = "c\\\\d" ∧
      Scan.recorded "c\\d" ∈
        (transpile {} installedSource (.ofPath "/node_modules/a.js")).2.dependencies := by
  obtain ⟨p, hparse, hitems⟩ := exists_ok_of_any (x := Grammar.parse installedSource)
    (P := fun p => p.statements.any fun st => st.loaded? == some "c\\d" &&
      st == .exportAll ⟨.literal "c\\d", some (.ident "ns"), ⟨17, 44⟩⟩) (by decide +kernel)
  obtain ⟨code, hcode, hpass⟩ := exists_ok_of_any (x := CommonJs.ofSource installedSource)
    (P := fun code => !Scan.needsTranspile code && !Scan.hasTemplateCall code.toList)
    (by decide +kernel)
  obtain ⟨st, hst, hitem⟩ := List.any_eq_true.1 hitems
  simp only [Bool.and_eq_true, beq_iff_eq, Bool.not_eq_true'] at hitem hpass
  obtain ⟨hloaded, rfl⟩ := hitem
  have hname : ∀ source name span, Statement.exportAll ⟨.literal "c\\d", some (.ident "ns"), ⟨17, 44⟩⟩ =
      .exportAll ⟨source, some name, span⟩ → '(' ∉ name.text.toList := by
    rintro source name span heq
    cases heq
    decide
  obtain ⟨hok, hmem, -⟩ := transpile_records (t := {}) (c := .ofPath "/node_modules/a.js")
    (by decide) (by decide +kernel) hparse hcode hpass.1 hpass.2 hst hloaded (by decide) hname
  exact ⟨p, code, _, hparse, hcode, hst, hloaded, hok, by decide, hmem⟩

/-- **Escapes stay in what is recorded of code that is passed on**, and a specifier with a quote is
not recorded at all. -/
theorem transpile_escapedSpecifier :
    (∃ p, Grammar.parse "import \"a\\\\b\";" = .ok p ∧
      p.statements.filterMap Statement.loaded? = ["a\\b"]) ∧
    (transpile {} "import \"a\\\\b\";" (.ofPath "/node_modules/a.js")).2.dependencies = ["a\\\\b"] ∧
    (∃ p, Grammar.parse "import 'a\"b';" = .ok p ∧
      p.statements.filterMap Statement.loaded? = ["a\"b"]) ∧
    (transpile {} "import 'a\"b';" (.ofPath "/node_modules/a.js")).2.dependencies = [] := by
  have hloaded {source : String} {specifiers : List String}
      (h : (Grammar.parse source).toOption.any
        (fun p => decide (p.statements.filterMap Statement.loaded? = specifiers)) = true) :
      ∃ p, Grammar.parse source = .ok p ∧
        p.statements.filterMap Statement.loaded? = specifiers := by
    obtain ⟨p, hparse, hp⟩ := exists_ok_of_any h
    exact ⟨p, hparse, by simpa using hp⟩
  exact ⟨hloaded (by decide +kernel), by decide +kernel, hloaded (by decide +kernel),
    by decide +kernel⟩

end Transpiler

end ModuleForge
