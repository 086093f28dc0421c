import ModuleForge.Package.Range
import ModuleForge.Proofs.Addresses
import ModuleForge.Proofs.Lexemes
import ModuleForge.Proofs.Paths

/-!
# Versions in ranges

A whole version that stands alone as an alternative of a range is meant as just this version. It is
told from a version with wildcards by its letters, and those of a pre-release or a build count, too:
with an `x` among them, the word gets no operator and is read as a caret comparator.

- `Comparator.read_version`: a word that names a whole version is a comparator.
- `Requirement.isMet_exact`, `Requirement.isMet_caret`: the versions that meet it, with the two
  operators that it can get.
- `Range.parse?_version`: what a whole version means as an alternative of a range.
-/

namespace ModuleForge

/-! ## Texts without separators -/

namespace Text

variable {c : Char} {cs : List Char}

theorem splitOnce?_of_notMem (h : c ∉ cs) (more : List Char) :
    splitOnce? (c :: more) cs = none := by
  induction cs with
  | nil => rfl
  | cons d cs ih =>
    rw [List.mem_cons, not_or] at h
    have hne : (c :: more).isPrefixOf (d :: cs) = false := by simp [List.isPrefixOf, h.1]
    rw [splitOnce?, hne, ih h.2]
    rfl

theorem splitOnText_of_notMem (h : c ∉ cs) (more : List Char) :
    splitOnText (c :: more) cs = [cs] := by
  induction cs with
  | nil => rfl
  | cons d cs ih =>
    rw [List.mem_cons, not_or] at h
    have hne : (c :: more).isPrefixOf (d :: cs) = false := by simp [List.isPrefixOf, h.1]
    rw [splitOnText] at ih
    rw [splitOnText, splitOnTextFrom, hne, ih h.2]
    rfl

theorem words_of_forall (h : ∀ c ∈ cs, isBlank c = false) (hne : cs ≠ []) : words cs = [cs] := by
  rw [words, splitWhere_of_forall h]
  simp [hne]

theorem trim_of_forall (h : ∀ c ∈ cs, isBlank c = false) : trim cs = cs := by
  have hdrop {ds : List Char} (hds : ∀ c ∈ ds, isBlank c = false) : ds.dropWhile isBlank = ds := by
    cases ds with
    | nil => rfl
    | cons d ds => rw [List.dropWhile_cons_of_neg (by simp [hds d])]
  rw [trim, trimStart, trimEnd, hdrop h, hdrop (by simpa using h), List.reverse_reverse]

end Text

/-! ## Versions -/

namespace Version

theorem exists_digit_of_readNumber {cs rest : List Char} {n : Nat}
    (h : readNumber cs = some (n, rest)) : ∃ d ds, cs = d :: ds ∧ d.isDigit = true := by
  simp only [readNumber] at h
  split at h
  · cases h
  · rename_i hbad
    simp only [Bool.or_eq_true, not_or, List.span_eq_takeWhile_dropWhile] at hbad
    cases cs with
    | nil => simp at hbad
    | cons d ds =>
      refine ⟨d, ds, rfl, ?_⟩
      by_contra hd
      simp [hd] at hbad

theorem isBlank_of_isVersionChar {c : Char} (h : isVersionChar c = true) :
    Text.isBlank c = false := by
  have hall : ∀ n ∈ Token.blankCodes, isVersionChar (Char.ofNat n) = false := by decide
  rw [Bool.eq_false_iff]
  intro hblank
  have hnot := hall _ (Token.toNat_mem_blankCodes hblank)
  rw [Char.ofNat_toNat, h] at hnot
  cases hnot

/-- The same numbers and the same pre-release, whatever the builds are. -/
def SameRelease (v w : Version) : Prop :=
  w.major = v.major ∧ w.minor = v.minor ∧ w.patch = v.patch ∧ w.pre = v.pre

/-- A later version that is compatible: a release that keeps the first number which is not zero, or
a later pre-release, or the release itself, of the same three numbers. -/
def IsFollowedBy (v w : Version) : Prop :=
  w.pre = [] ∧ w.major = v.major ∧
      (0 < v.major ∧ v.minor < w.minor ∨
        (0 < v.major ∨ 0 < v.minor) ∧ w.minor = v.minor ∧ v.patch < w.patch) ∨
    w.major = v.major ∧ w.minor = v.minor ∧ w.patch = v.patch ∧ comparePre w.pre v.pre = .gt

theorem comparePreIdentifier_eq_iff {a b : String} : comparePreIdentifier a b = .eq ↔ a = b := by
  unfold comparePreIdentifier
  constructor
  · intro h
    split at h
    · exact Std.compare_eq_iff_eq.1 (Ordering.then_eq_eq.1 h).2
    · cases h
    · cases h
    · exact Std.compare_eq_iff_eq.1 h
  · rintro rfl
    split <;> simp_all

theorem compareLists_eq_iff {compareItems : String → String → Ordering}
    (h : ∀ a b, compareItems a b = .eq ↔ a = b) {as bs : List String} :
    compareLists compareItems as bs = .eq ↔ as = bs := by
  induction as generalizing bs with
  | nil => cases bs <;> simp [compareLists]
  | cons a as ih =>
    cases bs with
    | nil => simp [compareLists]
    | cons b bs => rw [compareLists, Ordering.then_eq_eq, h, ih, List.cons.injEq]

theorem comparePre_eq_iff {as bs : List String} : comparePre as bs = .eq ↔ as = bs := by
  unfold comparePre
  split
  · simp
  · simp
  · simp
  · exact compareLists_eq_iff fun _ _ => comparePreIdentifier_eq_iff

/-- What is not below the other: the same, or above it. A release is below no pre-release. -/
theorem comparePre_ne_lt_iff (as bs : List String) :
    comparePre as bs ≠ .lt ∧ (as = [] ∨ bs ≠ []) ↔ as = bs ∨ comparePre as bs = .gt := by
  have hlt : comparePre as bs ≠ .lt → as = [] ∨ bs ≠ [] := by
    intro h
    cases bs with
    | nil => cases as with
      | nil => exact .inl rfl
      | cons a as => exact absurd rfl h
    | cons b bs => exact .inr (by simp)
  rw [and_iff_left_of_imp hlt, ← comparePre_eq_iff]
  cases comparePre as bs <;> simp

end Version

/-! ## Comparators -/

namespace Comparator

/-- The comparator that names a whole version. -/
def ofVersion (operator : Operator) (v : Version) : Comparator :=
  { operator, major := v.major, minor := some v.minor, patch := some v.patch, pre := v.pre }

theorem isWildcard_of_isDigit {c : Char} (h : c.isDigit = true) : isWildcard c = false := by
  rw [Bool.eq_false_iff]
  intro hwild
  simp only [isWildcard, Bool.or_eq_true, beq_iff_eq] at hwild
  rcases hwild with (rfl | rfl) | rfl <;> cases h

theorem readPart_number {cs rest : List Char} {n : Nat}
    (h : Version.readNumber cs = some (n, rest)) :
    readPart ('.' :: cs) = some (.number n, rest) := by
  obtain ⟨d, ds, rfl, hd⟩ := Version.exists_digit_of_readNumber h
  rw [readPart, isWildcard_of_isDigit hd, h]
  rfl

theorem skipSpaces_of_ne {c : Char} (h : c ≠ ' ') (cs : List Char) :
    skipSpaces (c :: cs) = c :: cs := by
  rw [skipSpaces, List.dropWhile_cons_of_neg (by simpa using h)]

theorem ne_of_isDigit {c d : Char} (h : c.isDigit = true) (hd : d.isDigit = false) : c ≠ d := by
  rintro rfl
  rw [h] at hd
  cases hd

/-- **A whole version is a comparator**, with the operator before it or, without one, as a caret
comparator. -/
theorem read_version {cs word : List Char} {v : Version} {operator : Option Operator}
    (hv : Version.ofChars? cs = some v) (hword : readOperator word = (operator, cs)) :
    read word = some (ofVersion (operator.getD .caret) v, []) := by
  obtain ⟨minor, patch, pre, build, hmajor, hminor, hpatch, hpre, hbuild⟩ :=
    Version.ofChars?_eq_some hv
  obtain ⟨d, ds, rfl, hd⟩ := Version.exists_digit_of_readNumber hmajor
  rw [read, hword]
  simp only [skipSpaces_of_ne (ne_of_isDigit hd (by decide)), hmajor, readPart_number hminor,
    readPart_number hpatch, readPre, hpre, hbuild, Option.bind_eq_bind, Option.bind_some]
  rfl

end Comparator

namespace Requirement

open Comparator

theorem readComparators_of_read {cs : List Char} {c : Comparator} (h : read cs = some (c, []))
    (room : Nat) : readComparators (room + 1) cs = some [c] := by
  simp [readComparators, h]

theorem parse?_word {cs word : List Char} {v : Version} {operator : Option Operator}
    (hv : Version.ofChars? cs = some v) (hword : readOperator word = (operator, cs))
    (hfirst : ∀ c, word.head? = some c → c ≠ ' ' ∧ isWildcard c = false) :
    parse? word = some ⟨[ofVersion (operator.getD .caret) v]⟩ := by
  have hread := read_version hv hword
  cases word with
  | nil => cases hread
  | cons c rest =>
    obtain ⟨hspace, hwild⟩ := hfirst c rfl
    rw [parse?, skipSpaces_of_ne hspace]
    simp only [hwild, Bool.false_eq_true, if_false]
    rw [maxComparators, readComparators_of_read hread]
    rfl

theorem isMet_singleton (c : Comparator) (w : Version) :
    isMet ⟨[c]⟩ w = true ↔ c.isMet w = true ∧ (w.pre = [] ∨ c.admitsPre w = true) := by
  simp [isMet]

theorem admitsPre_ofVersion (operator : Operator) (v w : Version) :
    (ofVersion operator v).admitsPre w = true ↔
      v.major = w.major ∧ v.minor = w.minor ∧ v.patch = w.patch ∧ v.pre ≠ [] := by
  simp [admitsPre, ofVersion, and_assoc]

/-- **Exactly that version**, whatever its build is. -/
theorem isMet_exact (v w : Version) :
    isMet ⟨[ofVersion .exact v]⟩ w = true ↔ v.SameRelease w := by
  have hexact : (ofVersion .exact v).isMet w = true ↔ v.SameRelease w := by
    simp [Comparator.isMet, isExact, ofVersion, Version.SameRelease, and_assoc]
  rw [isMet_singleton, hexact, and_iff_left_iff_imp, admitsPre_ofVersion]
  rintro ⟨hmajor, hminor, hpatch, hpre⟩
  by_cases hnil : w.pre = []
  · exact .inl hnil
  · exact .inr ⟨hmajor.symm, hminor.symm, hpatch.symm, hpre ▸ hnil⟩

/-- **That version and those that follow it.** -/
theorem isMet_caret (v w : Version) :
    isMet ⟨[ofVersion .caret v]⟩ w = true ↔ v.SameRelease w ∨ v.IsFollowedBy w := by
  rw [isMet_singleton, admitsPre_ofVersion]
  unfold Version.SameRelease Version.IsFollowedBy
  dsimp only [Comparator.isMet, ofVersion, isCaret, isPreAtLeast]
  by_cases hmajor : w.major = v.major
  · by_cases hminor : w.minor = v.minor
    · by_cases hpatch : w.patch = v.patch
      · simpa [hmajor, hminor, hpatch] using Version.comparePre_ne_lt_iff w.pre v.pre
      · simp [hmajor, hminor, hpatch, Ne.symm hpatch, and_comm]
    · simp [hmajor, hminor, Ne.symm hminor, and_comm]
  · simp [hmajor]

end Requirement

/-! ## Ranges -/

namespace Range

open Comparator

/-- A word that starts with a digit gets an operator unless it has a wildcard. -/
theorem comparatorText_of_isDigit {d : Char} (h : d.isDigit = true) (ds : List Char) :
    comparatorText (d :: ds) = if (d :: ds).any isWildcard then d :: ds else '=' :: d :: ds := by
  unfold comparatorText
  split
  · rename_i heq
    exact absurd (List.cons.inj heq).1 (ne_of_isDigit h (by decide))
  · simp only [List.head?_cons, Option.map_some, Option.getD_some, h, Bool.true_and]
    cases (d :: ds).any isWildcard <;> rfl

/-- The operator that a whole version gets, which depends on its letters. -/
def pinOperator (cs : List Char) : Operator :=
  if cs.any isWildcard then .caret else .exact

theorem readOperator_of_isDigit {d : Char} (h : d.isDigit = true) (ds : List Char) :
    readOperator (d :: ds) = (none, d :: ds) := by
  have hne {c : Char} (hc : c.isDigit = false) : d ≠ c := ne_of_isDigit h hc
  unfold readOperator
  split <;> rename_i heq
  all_goals first
    | rfl
    | exact absurd (List.cons.inj heq).1 (hne (by decide))

/-- **A whole version as an alternative.** -/
theorem alternative?_version {cs alternative : List Char} {v : Version}
    (hchars : ∀ c ∈ cs, Version.isVersionChar c = true) (hv : Version.ofChars? cs = some v)
    (htrim : Text.trim alternative = cs) :
    alternative? alternative = some ⟨[ofVersion (pinOperator cs) v]⟩ := by
  obtain ⟨minor, patch, pre, build, hmajor, -⟩ := Version.ofChars?_eq_some hv
  obtain ⟨d, ds, rfl, hd⟩ := Version.exists_digit_of_readNumber hmajor
  have hblank : ∀ c ∈ d :: ds, Text.isBlank c = false := fun c hc =>
    Version.isBlank_of_isVersionChar (hchars c hc)
  have hspace : ' ' ∉ d :: ds := fun hmem => by
    have := hblank ' ' hmem
    cases this
  have hoperator : isOperatorChar d = false := by
    have hne {c : Char} (hc : c.isDigit = false) : (d == c) = false :=
      beq_eq_false_iff_ne.2 (ne_of_isDigit hd hc)
    simp [isOperatorChar, hne]
  have htext : requirementText (d :: ds) = comparatorText (d :: ds) := by
    simp [requirementText, Text.splitOnce?_of_notMem hspace, Text.words_of_forall hblank,
      attachOperators, hoperator]
  rw [alternative?, htrim]
  dsimp only
  rw [htext, comparatorText_of_isDigit hd, pinOperator]
  split
  · refine Requirement.parse?_word hv (readOperator_of_isDigit hd ds) fun c hc => ?_
    obtain rfl := Option.some.inj hc
    exact ⟨ne_of_isDigit hd (by decide), isWildcard_of_isDigit hd⟩
  · have hequals : readOperator ('=' :: d :: ds) = (some .exact, d :: ds) := rfl
    refine Requirement.parse?_word hv hequals fun c hc => ?_
    obtain rfl := Option.some.inj hc
    decide

/-- A version has no star, so that a letter is what passes for a wildcard. -/
theorem any_isWildcard_iff {cs : List Char} (h : ∀ c ∈ cs, Version.isVersionChar c = true) :
    cs.any isWildcard = true ↔ ∃ c ∈ cs, c = 'x' ∨ c = 'X' := by
  rw [List.any_eq_true]
  refine exists_congr fun c => and_congr_right fun hc => ?_
  have hstar : c ≠ '*' := by
    rintro rfl
    have := h '*' hc
    cases this
  simp [isWildcard, hstar]

theorem isMet_pin {cs : List Char} (h : ∀ c ∈ cs, Version.isVersionChar c = true) (v w : Version) :
    Requirement.isMet ⟨[ofVersion (pinOperator cs) v]⟩ w = true ↔
      v.SameRelease w ∨ (∃ c ∈ cs, c = 'x' ∨ c = 'X') ∧ v.IsFollowedBy w := by
  rw [← any_isWildcard_iff h, pinOperator]
  split
  · rename_i hwild
    rw [Requirement.isMet_caret, hwild]
    simp
  · rename_i hwild
    rw [Requirement.isMet_exact, Bool.eq_false_iff.2 hwild]
    simp

/-- **What a whole version means as an alternative of a range.** The range can be read if its other
alternatives can, and the requirement of this one is met by the versions of the same numbers and the
same pre-release. If an `x` is among the letters of the version, those that follow it meet it,
too. -/
theorem parse?_version {range text : String} {before after : List (List Char)}
    {alternative : List Char} {v : Version}
    (hrange : Text.splitOnText ['|', '|'] range.toList = before ++ alternative :: after)
    (htext : Text.trim alternative = text.toList) (hv : Version.parse? text = some v) :
    ∃ r, parse? text = some [r] ∧
      parse? range = (do
        let first ← before.mapM alternative?
        let last ← after.mapM alternative?
        pure (first ++ r :: last)) ∧
      ∀ w, r.isMet w = true ↔
        v.SameRelease w ∨ (∃ c ∈ text.toList, c = 'x' ∨ c = 'X') ∧ v.IsFollowedBy w := by
  have hchars := Version.hasVersionChars_of_parse? (by rw [hv]; rfl : (Version.parse? text).isSome)
  have hbar : '|' ∉ text.toList := fun hmem => by
    have := hchars '|' hmem
    cases this
  have halone : Text.trim text.toList = text.toList :=
    Text.trim_of_forall fun c hc => Version.isBlank_of_isVersionChar (hchars c hc)
  refine ⟨⟨[ofVersion (pinOperator text.toList) v]⟩, ?_, ?_, fun w => ?_⟩
  · rw [parse?, Text.splitOnText_of_notMem hbar]
    simp [alternative?_version hchars hv halone]
  · rw [parse?, hrange]
    simp [alternative?_version hchars hv htext, Option.bind_assoc]
  · exact isMet_pin hchars v w

/-- A pre-release with a build between two other alternatives. -/
theorem parse?_version_amongOthers :
    let range := "^2.0.0 || 1.2.3-rc.1+b5 ||>=4"
    let text := "1.2.3-rc.1+b5"
    let v : Version := { major := 1, minor := 2, patch := 3, pre := ["rc", "1"], build := ["b5"] }
    Text.splitOnText ['|', '|'] range.toList =
        ["^2.0.0 ".toList] ++ " 1.2.3-rc.1+b5 ".toList :: [">=4".toList] ∧
      Text.trim " 1.2.3-rc.1+b5 ".toList = text.toList ∧ Version.parse? text = some v ∧
      ∃ r, parse? text = some [r] ∧
        parse? range = (do
          let first ← ["^2.0.0 ".toList].mapM alternative?
          let last ← [">=4".toList].mapM alternative?
          pure (first ++ r :: last)) ∧
        ∀ w, r.isMet w = true ↔
          v.SameRelease w ∨ (∃ c ∈ text.toList, c = 'x' ∨ c = 'X') ∧ v.IsFollowedBy w :=
  ⟨by decide +kernel, by decide +kernel, by decide +kernel,
    @parse?_version _ _ _ _ " 1.2.3-rc.1+b5 ".toList _ (by decide +kernel) (by decide +kernel)
      (by decide +kernel)⟩

/-- A pre-release whose name has an `x` admits a later release. -/
theorem parse?_widenedVersion :
    let v : Version := { major := 1, minor := 0, patch := 0, pre := ["next", "1"] }
    let w : Version := { major := 1, minor := 5, patch := 0 }
    Version.parse? "1.0.0-next.1" = some v ∧
      ∃ r, parse? "1.0.0-next.1" = some [r] ∧ r.isMet w = true ∧ ¬ v.SameRelease w :=
  ⟨by decide +kernel,
    ⟨[ofVersion .caret { major := 1, minor := 0, patch := 0, pre := ["next", "1"] }]⟩,
    by decide +kernel, by decide +kernel, fun h => absurd h.2.1 (by decide)⟩

end Range

end ModuleForge
