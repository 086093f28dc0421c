import ModuleForge.Proofs.Pins

/-!
# The precedence of versions

`Version.Precedes v w`: `v` is the lower of two versions, by the rules of semantic versions: numbers
first, then the identifiers of the pre-release, then those of the build. Numeric identifiers compare
by their values, and those of one value by their leading zeros.

The comparison looks at lengths and texts only and never computes a value. It is a total order on all
versions (`Version.transCmp_compareTo`, `Version.compareTo_eq_iff`), and on the versions that can be
written it is the precedence (`Version.compareTo_eq_lt_iff`).

- `Version.greatest?_eq_some_iff`: the greatest of a list of versions.
- `Range.best?_greatest`: the best version of a range is the one of greatest precedence, whatever the
  order of the lists is and however often a version is listed.
-/

namespace ModuleForge

open Std (TransCmp OrientedCmp)

namespace Version

/-! ## Precedence -/

/-- The number that an identifier of digits denotes. -/
def digitsValue (id : String) : Nat := Nat.ofDigitChars 10 id.toList 0

/-- `a` is the lower of two identifiers: numbers come before texts and compare by value, and of one
value the one with fewer leading zeros is lower. -/
inductive IdentifierBefore (a b : String) : Prop
  | value : isNumeric a = true → isNumeric b = true → digitsValue a < digitsValue b →
      IdentifierBefore a b
  | zeros : isNumeric a = true → isNumeric b = true → digitsValue a = digitsValue b →
      a.length < b.length → IdentifierBefore a b
  | numberFirst : isNumeric a = true → isNumeric b = false → IdentifierBefore a b
  | text : isNumeric a = false → isNumeric b = false → a < b → IdentifierBefore a b

/-- `as` is the lower of two pre-releases. The release, which has no identifiers, is above all. -/
inductive PreBefore : List String → List String → Prop
  | release {a : String} {as : List String} : PreBefore (a :: as) []
  | identifiers {a : String} {as bs : List String} :
      List.Lex IdentifierBefore (a :: as) bs → PreBefore (a :: as) bs

/-- **The precedence of versions**: `v` is lower than `w`. -/
inductive Precedes (v w : Version) : Prop
  | major : v.major < w.major → Precedes v w
  | minor : v.major = w.major → v.minor < w.minor → Precedes v w
  | patch : v.major = w.major → v.minor = w.minor → v.patch < w.patch → Precedes v w
  | pre : v.major = w.major → v.minor = w.minor → v.patch = w.patch → PreBefore v.pre w.pre →
      Precedes v w
  | build : v.major = w.major → v.minor = w.minor → v.patch = w.patch → v.pre = w.pre →
      List.Lex IdentifierBefore v.build w.build → Precedes v w

/-! ## Values of digits -/

section
variable {xs ys : List Char}

theorem le_ofDigitChars (xs : List Char) (n : Nat) : n ≤ Nat.ofDigitChars 10 xs n := by
  induction xs generalizing n with
  | nil => exact Nat.le_refl n
  | cons c xs ih =>
    rw [Nat.ofDigitChars_cons]
    exact Nat.le_trans (by omega) (ih _)

theorem toNat_of_isDigit {c : Char} (h : c.isDigit = true) :
    '0'.toNat ≤ c.toNat ∧ c.toNat ≤ '0'.toNat + 9 := by
  obtain ⟨hlow, hhigh⟩ := Char.isDigit_iff_toNat.1 h
  exact ⟨hlow, hhigh⟩

theorem ofDigitChars_lt (hxs : ∀ c ∈ xs, c.isDigit = true) (hlen : xs.length = ys.length)
    {m n : Nat} (h : m < n) : Nat.ofDigitChars 10 xs m < Nat.ofDigitChars 10 ys n := by
  induction xs generalizing ys m n with
  | nil =>
    obtain rfl := List.length_eq_zero_iff.1 hlen.symm
    exact h
  | cons c xs ih =>
    cases ys with
    | nil => cases hlen
    | cons d ys =>
      obtain ⟨hc, hxs⟩ := List.forall_mem_cons.1 hxs
      have hdigit := toNat_of_isDigit hc
      rw [Nat.ofDigitChars_cons, Nat.ofDigitChars_cons]
      exact ih hxs (Nat.succ.inj hlen) (by omega)

theorem ofDigitChars_lt_iff (hxs : ∀ c ∈ xs, c.isDigit = true) (hys : ∀ c ∈ ys, c.isDigit = true)
    (hlen : xs.length = ys.length) (n : Nat) :
    Nat.ofDigitChars 10 xs n < Nat.ofDigitChars 10 ys n ↔ xs < ys := by
  induction xs generalizing ys n with
  | nil =>
    obtain rfl := List.length_eq_zero_iff.1 hlen.symm
    simp
  | cons c xs ih =>
    cases ys with
    | nil => cases hlen
    | cons d ys =>
      obtain ⟨hc, hxs⟩ := List.forall_mem_cons.1 hxs
      obtain ⟨hd, htail⟩ := List.forall_mem_cons.1 hys
      have hcn := toNat_of_isDigit hc
      have hdn := toNat_of_isDigit hd
      have hrest := Nat.succ.inj hlen
      have hchar : c < d ↔ c.toNat < d.toNat := UInt32.lt_iff_toNat_lt
      rw [Nat.ofDigitChars_cons, Nat.ofDigitChars_cons, List.cons_lt_cons_iff, hchar]
      rcases Nat.lt_trichotomy c.toNat d.toNat with hlt | heq | hgt
      · exact iff_of_true (ofDigitChars_lt hxs hrest (by omega)) (.inl hlt)
      · obtain rfl := Char.toNat_inj.1 heq
        simp [ih hxs htail hrest]
      · have hne : c ≠ d := by rintro rfl; omega
        refine iff_of_false ?_ (by simp [hne]; omega)
        exact Nat.lt_asymm (ofDigitChars_lt htail hrest.symm (by omega))

/-- Of two runs of digits, the shorter one has the lower value if the other has no leading zero. -/
theorem ofDigitChars_lt_of_length_lt (hxs : ∀ c ∈ xs, c.isDigit = true)
    (hys : ∀ c ∈ ys, c.isDigit = true) (hzero : ys.head? ≠ some '0')
    (hlen : xs.length < ys.length) : Nat.ofDigitChars 10 xs 0 < Nat.ofDigitChars 10 ys 0 := by
  cases ys with
  | nil => cases hlen
  | cons d ys =>
    have hpos : 0 < d.toNat - '0'.toNat := by
      have hdn := toNat_of_isDigit (hys d List.mem_cons_self)
      have hne : d.toNat ≠ '0'.toNat := fun h => hzero (congrArg some (Char.toNat_inj.1 h))
      omega
    -- the last digits of the longer run have a counterpart, and those before them are not all zero
    have hsplit := List.take_append_drop (ys.length - xs.length) ys
    rw [List.length_cons] at hlen
    rw [Nat.ofDigitChars_cons, ← hsplit, Nat.ofDigitChars_append]
    refine ofDigitChars_lt hxs (by simp; omega) ?_
    exact Nat.lt_of_lt_of_le (by omega) (le_ofDigitChars _ _)

theorem compare_eq_lt_iff_lt {a b : String} : compare a b = .lt ↔ a < b :=
  compareOfLessAndEq_eq_lt

theorem compare_ofDigitChars (hxs : ∀ c ∈ xs, c.isDigit = true) (hys : ∀ c ∈ ys, c.isDigit = true)
    (hlen : xs.length = ys.length) :
    compare (Nat.ofDigitChars 10 xs 0) (Nat.ofDigitChars 10 ys 0) =
      compare (String.ofList xs) (String.ofList ys) := by
  have hlt {as bs : List Char} (has : ∀ c ∈ as, c.isDigit = true) (hbs : ∀ c ∈ bs, c.isDigit = true)
      (hab : as.length = bs.length) (h : compare (String.ofList as) (String.ofList bs) = .lt) :
      Nat.ofDigitChars 10 as 0 < Nat.ofDigitChars 10 bs 0 := by
    rw [compare_eq_lt_iff_lt, String.lt_iff, String.toList_ofList, String.toList_ofList] at h
    exact (ofDigitChars_lt_iff has hbs hab 0).2 h
  cases h : compare (String.ofList xs) (String.ofList ys) with
  | lt => exact Nat.compare_eq_lt.2 (hlt hxs hys hlen h)
  | eq => rw [String.ofList_injective (Std.compare_eq_iff_eq.1 h), Std.compare_self]
  | gt => exact Nat.compare_eq_gt.2 (hlt hys hxs hlen.symm (OrientedCmp.gt_iff_lt.1 h))

/-- **Length first, then text, is the order of the values**, if the longer of the two has no leading
zero. -/
theorem compare_length_then (hxs : ∀ c ∈ xs, c.isDigit = true) (hys : ∀ c ∈ ys, c.isDigit = true)
    (hx : ys.length < xs.length → xs.head? ≠ some '0')
    (hy : xs.length < ys.length → ys.head? ≠ some '0') :
    (compare xs.length ys.length).then (compare (String.ofList xs) (String.ofList ys)) =
      compare (Nat.ofDigitChars 10 xs 0) (Nat.ofDigitChars 10 ys 0) := by
  rcases Nat.lt_trichotomy xs.length ys.length with hlt | heq | hgt
  · have hvalue := ofDigitChars_lt_of_length_lt hxs hys (hy hlt) hlt
    rw [Nat.compare_eq_lt.2 hlt, Nat.compare_eq_lt.2 hvalue]
    rfl
  · rw [Nat.compare_eq_eq.2 heq, Ordering.eq_then, compare_ofDigitChars hxs hys heq]
  · have hvalue := ofDigitChars_lt_of_length_lt hys hxs (hx hgt) hgt
    rw [Nat.compare_eq_gt.2 hgt, Nat.compare_eq_gt.2 hvalue]
    rfl

theorem ofDigitChars_dropWhile (xs : List Char) :
    Nat.ofDigitChars 10 (xs.dropWhile (· == '0')) 0 = Nat.ofDigitChars 10 xs 0 := by
  induction xs with
  | nil => rfl
  | cons c xs ih =>
    by_cases hc : c = '0'
    · rw [List.dropWhile_cons_of_pos (by simp [hc]), ih, hc]
      rfl
    · rw [List.dropWhile_cons_of_neg (by simp [hc])]

end

/-! ## Identifiers -/

/-- Numbers come before texts, which compare as texts. -/
def numbersFirst (numbers : String → String → Ordering) (a b : String) : Ordering :=
  match isNumeric a, isNumeric b with
  | true, true => numbers a b
  | true, false => .lt
  | false, true => .gt
  | false, false => compare a b

theorem transCmp_numbersFirst (numbers : String → String → Ordering) [TransCmp numbers] :
    TransCmp (numbersFirst numbers) where
  eq_swap {a b} := by
    cases ha : isNumeric a <;> cases hb : isNumeric b <;> simp only [numbersFirst, ha, hb]
    · exact Std.OrientedOrd.eq_swap
    · rfl
    · rfl
    · exact OrientedCmp.eq_swap
  isLE_trans {a b c} hab hbc := by
    cases ha : isNumeric a <;> cases hb : isNumeric b <;> cases hc : isNumeric c <;>
      simp only [numbersFirst, ha, hb, hc] at hab hbc ⊢
    all_goals first
      | exact TransCmp.isLE_trans hab hbc
      | rfl
      | exact absurd hab Bool.false_ne_true
      | exact absurd hbc Bool.false_ne_true

/-- Numbers by their values, and those of one value by their lengths. -/
def compareNumbers : String → String → Ordering :=
  compareLex (compareOn digitsValue) (compareOn String.length)

instance : TransCmp compareNumbers :=
  inferInstanceAs (TransCmp (compareLex (compareOn digitsValue) (compareOn String.length)))

instance : TransCmp comparePreIdentifier :=
  transCmp_numbersFirst (compareLex (compareOn String.length) compare)

section
variable {a b : String}

theorem isDigit_of_isNumeric (h : isNumeric a = true) : ∀ c ∈ a.toList, c.isDigit = true :=
  List.all_eq_true.1 h

theorem compareBuildIdentifier_eq (a b : String) :
    compareBuildIdentifier a b = numbersFirst compareNumbers a b := by
  unfold compareBuildIdentifier numbersFirst
  cases ha : isNumeric a <;> cases hb : isNumeric b
  · rfl
  · rfl
  · rfl
  · have hhead (id : String) : (id.toList.dropWhile (· == '0')).head? ≠ some '0' := by
      intro h
      have := List.head?_dropWhile_not (· == '0') id.toList
      rw [h] at this
      cases this
    have hdigit {id : String} (h : isNumeric id = true) :
        ∀ c ∈ id.toList.dropWhile (· == '0'), c.isDigit = true :=
      fun c hc => isDigit_of_isNumeric h c ((List.dropWhile_sublist _).subset hc)
    dsimp only
    rw [← Ordering.then_assoc, compare_length_then (hdigit ha) (hdigit hb) (fun _ => hhead a)
      (fun _ => hhead b), ofDigitChars_dropWhile, ofDigitChars_dropWhile]
    rfl

instance : TransCmp compareBuildIdentifier := by
  rw [show compareBuildIdentifier = numbersFirst compareNumbers from
    funext fun a => funext (compareBuildIdentifier_eq a)]
  exact transCmp_numbersFirst compareNumbers

theorem compareNumbers_eq_lt_iff : compareNumbers a b = .lt ↔
    digitsValue a < digitsValue b ∨ digitsValue a = digitsValue b ∧ a.length < b.length := by
  rw [compareNumbers, compareLex, Ordering.then_eq_lt, compareOn, compareOn, Nat.compare_eq_lt,
    Nat.compare_eq_lt, Nat.compare_eq_eq]

theorem compareBuildIdentifier_eq_lt_iff :
    compareBuildIdentifier a b = .lt ↔ IdentifierBefore a b := by
  rw [compareBuildIdentifier_eq]
  constructor
  · intro h
    cases ha : isNumeric a <;> cases hb : isNumeric b <;> simp only [numbersFirst, ha, hb] at h
    · exact .text ha hb (compare_eq_lt_iff_lt.1 h)
    · cases h
    · exact .numberFirst ha hb
    · rcases compareNumbers_eq_lt_iff.1 h with hlt | ⟨heq, hlen⟩
      · exact .value ha hb hlt
      · exact .zeros ha hb heq hlen
  · intro h
    cases h with
    | value ha hb hlt => simp only [numbersFirst, ha, hb, compareNumbers_eq_lt_iff, hlt, true_or]
    | zeros ha hb heq hlen =>
      simp only [numbersFirst, ha, hb]
      exact compareNumbers_eq_lt_iff.2 (.inr ⟨heq, hlen⟩)
    | numberFirst ha hb => simp only [numbersFirst, ha, hb]
    | text ha hb hlt =>
      simp only [numbersFirst, ha, hb]
      exact compare_eq_lt_iff_lt.2 hlt

theorem compareBuildIdentifier_eq_iff : compareBuildIdentifier a b = .eq ↔ a = b := by
  constructor
  · intro h
    rw [compareBuildIdentifier_eq] at h
    cases ha : isNumeric a <;> cases hb : isNumeric b <;> simp only [numbersFirst, ha, hb] at h
    · exact Std.compare_eq_iff_eq.1 h
    · cases h
    · cases h
    · obtain ⟨hvalue, hlen⟩ := Ordering.then_eq_eq.1 h
      have hlen : a.toList.length = b.toList.length := by
        rw [String.length_toList, String.length_toList]
        exact Nat.compare_eq_eq.1 hlen
      have heq := compare_ofDigitChars (isDigit_of_isNumeric ha) (isDigit_of_isNumeric hb) hlen
      rw [String.ofList_toList, String.ofList_toList] at heq
      exact Std.compare_eq_iff_eq.1 (heq.symm.trans hvalue)
  · rintro rfl
    exact Std.ReflCmp.compare_self

/-- An identifier of a pre-release: not empty, and without leading zero if it is a number. -/
def IsPreIdentifier (id : String) : Prop :=
  id.toList ≠ [] ∧ (isNumeric id = true → hasLeadingZero id.toList = false)

/-- A number of a pre-release has no leading zero if there is a shorter one. -/
theorem IsPreIdentifier.head?_ne (ha : IsPreIdentifier a) (hb : IsPreIdentifier b)
    (hnum : isNumeric b = true) (hlen : a.toList.length < b.toList.length) :
    b.toList.head? ≠ some '0' := by
  have hzero := hb.2 hnum
  have hpos := List.length_pos_iff.2 ha.1
  cases hbs : b.toList with
  | nil => simp
  | cons c cs =>
    cases cs with
    | nil => rw [hbs, List.length_singleton] at hlen; omega
    | cons d ds =>
      rintro hc
      obtain rfl := Option.some.inj hc
      rw [hbs] at hzero
      cases hzero

/-- For the identifiers of pre-releases the two comparisons are the same. -/
theorem comparePreIdentifier_eq (ha : IsPreIdentifier a) (hb : IsPreIdentifier b) :
    comparePreIdentifier a b = compareBuildIdentifier a b := by
  rw [compareBuildIdentifier_eq]
  cases hna : isNumeric a <;> cases hnb : isNumeric b <;>
    simp only [comparePreIdentifier, numbersFirst, hna, hnb]
  have hvalue := compare_length_then (isDigit_of_isNumeric hna) (isDigit_of_isNumeric hnb)
    (hb.head?_ne ha hna) (ha.head?_ne hb hnb)
  rw [String.ofList_toList, String.ofList_toList, String.length_toList, String.length_toList]
    at hvalue
  -- numbers of one value have one length, so that the length decides nothing behind the value
  rw [compareNumbers, compareLex]
  cases h : compareOn digitsValue a b with
  | lt => exact hvalue.trans h
  | gt => exact hvalue.trans h
  | eq =>
    obtain ⟨hlen, -⟩ := Ordering.then_eq_eq.1 (hvalue.trans h)
    exact (hvalue.trans h).trans hlen.symm

end

/-! ## Lists of identifiers -/

theorem compareLists_eq_compareLex (compareItems : String → String → Ordering) :
    compareLists compareItems = List.compareLex compareItems := by
  funext as bs
  induction as generalizing bs with
  | nil => cases bs <;> rfl
  | cons a as ih =>
    cases bs with
    | nil => rfl
    | cons b bs => rw [compareLists, List.compareLex_cons_cons, ih]

instance (compareItems : String → String → Ordering) [TransCmp compareItems] :
    TransCmp (compareLists compareItems) := by
  rw [compareLists_eq_compareLex]
  infer_instance

theorem compareLists_eq_lt_iff {compareItems : String → String → Ordering}
    (heq : ∀ a b, compareItems a b = .eq ↔ a = b) {before : String → String → Prop}
    {as bs : List String} (h : ∀ a ∈ as, ∀ b ∈ bs, compareItems a b = .lt ↔ before a b) :
    compareLists compareItems as bs = .lt ↔ List.Lex before as bs := by
  induction as generalizing bs with
  | nil => cases bs <;> simp [compareLists]
  | cons a as ih =>
    cases bs with
    | nil => simp [compareLists]
    | cons b bs =>
      have hhead := h a List.mem_cons_self b List.mem_cons_self
      have htail := ih fun x hx y hy => h x (List.mem_cons_of_mem a hx) y (List.mem_cons_of_mem b hy)
      rw [compareLists, Ordering.then_eq_lt, hhead, heq, htail, List.cons_lex_cons_iff]

instance : TransCmp comparePre where
  eq_swap {as bs} := by
    cases as <;> cases bs
    · rfl
    · rfl
    · rfl
    · exact @OrientedCmp.eq_swap _ (compareLists comparePreIdentifier) _ _ _
  isLE_trans {as bs cs} hab hbc := by
    cases as <;> cases bs <;> cases cs
    all_goals first
      | rfl
      | exact absurd hab Bool.false_ne_true
      | exact absurd hbc Bool.false_ne_true
      | exact @TransCmp.isLE_trans _ (compareLists comparePreIdentifier) _ _ _ _ hab hbc

theorem comparePre_eq_lt_iff {as bs : List String} (has : ∀ a ∈ as, IsPreIdentifier a)
    (hbs : ∀ b ∈ bs, IsPreIdentifier b) : comparePre as bs = .lt ↔ PreBefore as bs := by
  have hlist := @compareLists_eq_lt_iff _ (fun _ _ => comparePreIdentifier_eq_iff) IdentifierBefore
    as bs fun a ha b hb => by
      rw [comparePreIdentifier_eq (has a ha) (hbs b hb), compareBuildIdentifier_eq_lt_iff]
  cases as with
  | nil =>
    refine iff_of_false ?_ (fun h => by cases h)
    cases bs <;> simp [comparePre]
  | cons a as =>
    cases bs with
    | nil => exact iff_of_true rfl .release
    | cons b bs =>
      refine hlist.trans ⟨.identifiers, fun h => ?_⟩
      cases h with
      | identifiers h => exact h

/-! ## Versions -/

theorem transCmp_on {α : Type} (compareParts : α → α → Ordering) [TransCmp compareParts]
    (part : Version → α) : TransCmp fun v w => compareParts (part v) (part w) where
  eq_swap {v w} := @OrientedCmp.eq_swap _ compareParts _ (part v) (part w)
  isLE_trans hab hbc := @TransCmp.isLE_trans _ compareParts _ _ _ _ hab hbc

/-- **Versions are compared by a total order.** -/
instance transCmp_compareTo : TransCmp compareTo :=
  have := transCmp_on comparePre pre
  have := transCmp_on (compareLists compareBuildIdentifier) build
  inferInstanceAs (TransCmp (compareLex (compareOn major) (compareLex (compareOn minor)
    (compareLex (compareOn patch) (compareLex (fun v w => comparePre v.pre w.pre)
      fun v w => compareLists compareBuildIdentifier v.build w.build)))))

section
variable {v w : Version} {vs : List Version}

theorem compareTo_eq_iff : compareTo v w = .eq ↔ v = w := by
  have hbuild : compareLists compareBuildIdentifier v.build w.build = .eq ↔ v.build = w.build :=
    compareLists_eq_iff fun _ _ => compareBuildIdentifier_eq_iff
  simp only [compareTo, Ordering.then_eq_eq, Nat.compare_eq_eq, comparePre_eq_iff, hbuild]
  cases v
  cases w
  simp

/-- A version that can be written: the identifiers of its pre-release are in order. -/
def IsWritable (v : Version) : Prop := ∀ id ∈ v.pre, IsPreIdentifier id

theorem isWritable_of_parse? {text : String} (h : parse? text = some v) : v.IsWritable := by
  obtain ⟨-, -, cs, rest, -, -, -, hpre, -⟩ := ofChars?_eq_some h
  intro id hid
  unfold readPre at hpre
  split at hpre
  · simp only [readIdentifiers] at hpre
    split at hpre
    · cases hpre
    · rename_i hgood
      rw [← (Prod.mk.inj (Option.some.inj hpre)).1] at hid
      obtain ⟨part, hpart, rfl⟩ := List.mem_map.1 hid
      simp only [List.any_eq_true, not_exists, not_and, Bool.not_eq_true, Bool.or_eq_false_iff]
        at hgood
      obtain ⟨hempty, hzero⟩ := hgood part hpart
      rw [IsPreIdentifier, isNumeric, String.toList_ofList]
      refine ⟨by simpa using hempty, fun hnum => ?_⟩
      simpa [hnum] using hzero
  · rw [← (Prod.mk.inj (Option.some.inj hpre)).1] at hid
    cases hid

/-- **The comparison is the precedence** of versions that can be written. -/
theorem compareTo_eq_lt_iff (hv : v.IsWritable) (hw : w.IsWritable) :
    compareTo v w = .lt ↔ v.Precedes w := by
  have hbuild : compareLists compareBuildIdentifier v.build w.build = .lt ↔
      List.Lex IdentifierBefore v.build w.build :=
    compareLists_eq_lt_iff (fun _ _ => compareBuildIdentifier_eq_iff) fun _ _ _ _ =>
      compareBuildIdentifier_eq_lt_iff
  simp only [compareTo, Ordering.then_eq_lt, Nat.compare_eq_lt, Nat.compare_eq_eq,
    comparePre_eq_lt_iff hv hw, comparePre_eq_iff, hbuild]
  constructor
  · rintro (h | ⟨h1, h | ⟨h2, h | ⟨h3, h | ⟨h4, h⟩⟩⟩⟩)
    · exact .major h
    · exact .minor h1 h
    · exact .patch h1 h2 h
    · exact .pre h1 h2 h3 h
    · exact .build h1 h2 h3 h4 h
  · intro h
    cases h with
    | major h => exact .inl h
    | minor h1 h => exact .inr ⟨h1, .inl h⟩
    | patch h1 h2 h => exact .inr ⟨h1, .inr ⟨h2, .inl h⟩⟩
    | pre h1 h2 h3 h => exact .inr ⟨h1, .inr ⟨h2, .inr ⟨h3, .inl h⟩⟩⟩
    | build h1 h2 h3 h4 h => exact .inr ⟨h1, .inr ⟨h2, .inr ⟨h3, .inr ⟨h4, h⟩⟩⟩⟩

/-! ## The greatest version -/

theorem greatest?_eq_none_iff : greatest? vs = none ↔ vs = [] := by
  cases vs with
  | nil => simp [greatest?]
  | cons v vs =>
    rw [greatest?]
    cases greatest? vs <;> simp

/-- What is picked is listed, and nothing that is listed is above it. -/
theorem greatest?_spec (h : greatest? vs = some v) : v ∈ vs ∧ ∀ w ∈ vs, compareTo v w ≠ .lt := by
  induction vs generalizing v with
  | nil => cases h
  | cons u vs ih =>
    rw [greatest?] at h
    cases hrest : greatest? vs with
    | none =>
      obtain rfl := greatest?_eq_none_iff.1 hrest
      obtain rfl : u = v := by simpa [hrest] using h
      simp [Std.ReflCmp.compare_self]
    | some x =>
      obtain ⟨hmem, hall⟩ := ih hrest
      simp only [hrest, Option.some.injEq] at h
      split at h
      · rename_i hgt
        -- the first one is above the greatest of the rest, and so above all of them
        obtain rfl := h
        have hgt : compareTo x u = .lt := OrientedCmp.gt_iff_lt.1 (by simpa using hgt)
        refine ⟨List.mem_cons_self, List.forall_mem_cons.2 ⟨by simp [Std.ReflCmp.compare_self], ?_⟩⟩
        intro w hw hlt
        exact hall w hw (TransCmp.lt_trans hgt hlt)
      · rename_i hngt
        obtain rfl := h
        refine ⟨List.mem_cons_of_mem u hmem, List.forall_mem_cons.2 ⟨fun hlt => hngt ?_, hall⟩⟩
        simpa using OrientedCmp.gt_iff_lt.2 hlt

/-- **The greatest version of a list** is the only one that no other is above. -/
theorem greatest?_eq_some_iff :
    greatest? vs = some v ↔ v ∈ vs ∧ ∀ w ∈ vs, compareTo v w ≠ .lt := by
  refine ⟨greatest?_spec, fun ⟨hmem, hall⟩ => ?_⟩
  cases h : greatest? vs with
  | none => rw [greatest?_eq_none_iff.1 h] at hmem; cases hmem
  | some u =>
    obtain ⟨humem, huall⟩ := greatest?_spec h
    have hle : compareTo v u ≠ .gt := fun hgt => huall v hmem (OrientedCmp.gt_iff_lt.1 hgt)
    have heq : compareTo v u = .eq := by
      cases hc : compareTo v u with
      | lt => exact absurd hc (hall u humem)
      | eq => rfl
      | gt => exact absurd hc hle
    rw [compareTo_eq_iff.1 heq]

end

end Version

/-! ## The best version of a range -/

namespace Range

/-- A listed version that meets one of the requirements. -/
def IsCandidate (versions : List String) (requirements : List Requirement) (v : Version) : Prop :=
  (∃ text ∈ versions, Version.parse? text = some v) ∧ ∃ r ∈ requirements, r.isMet v = true

section
variable {versions : List String} {requirements : List Requirement} {v : Version}

theorem mem_candidates_iff :
    v ∈ (versions.filterMap Version.parse?).filter (contains requirements) ↔
      IsCandidate versions requirements v := by
  simp [IsCandidate, contains]

theorem IsCandidate.isWritable (h : IsCandidate versions requirements v) : v.IsWritable := by
  obtain ⟨⟨text, -, htext⟩, -⟩ := h
  exact Version.isWritable_of_parse? htext

theorem best?_eq_none : best? versions requirements = none ↔
    ∀ v, ¬ IsCandidate versions requirements v := by
  rw [best?, Version.greatest?_eq_none_iff, List.eq_nil_iff_forall_not_mem]
  exact forall_congr' fun v => not_congr mem_candidates_iff

theorem best?_eq_some : best? versions requirements = some v ↔
    IsCandidate versions requirements v ∧
      ∀ w, IsCandidate versions requirements w → ¬ v.Precedes w := by
  rw [best?, Version.greatest?_eq_some_iff, mem_candidates_iff]
  refine and_congr_right fun hv => forall_congr' fun w => ?_
  rw [mem_candidates_iff]
  exact imp_congr_right fun hw => not_congr (Version.compareTo_eq_lt_iff hv.isWritable hw.isWritable)

end

/-- **The best version of a range.** There is none if and only if no listed version meets a
requirement. Otherwise it is the listed version that meets one and has the greatest precedence of all
these, and no other version is that. It depends on what is listed and required, but neither on the
order of the two lists nor on repetitions. -/
theorem best?_greatest (versions : List String) (requirements : List Requirement) :
    (best? versions requirements = none ↔
        ∀ text ∈ versions, ∀ v, Version.parse? text = some v →
          ∀ r ∈ requirements, r.isMet v = false) ∧
      (∀ v, best? versions requirements = some v ↔
        IsCandidate versions requirements v ∧
          ∀ w, IsCandidate versions requirements w → ¬ v.Precedes w) ∧
      ∀ versions' requirements', (∀ t, t ∈ versions' ↔ t ∈ versions) →
        (∀ r, r ∈ requirements' ↔ r ∈ requirements) →
        best? versions' requirements' = best? versions requirements := by
  refine ⟨?_, fun v => best?_eq_some, fun versions' requirements' hversions hrequirements => ?_⟩
  · rw [best?_eq_none]
    constructor
    · intro h text htext v hv r hr
      rw [Bool.eq_false_iff]
      exact fun hmet => h v ⟨⟨text, htext, hv⟩, r, hr, hmet⟩
    · rintro h v ⟨⟨text, htext, hv⟩, r, hr, hmet⟩
      rw [h text htext v hv r hr] at hmet
      cases hmet
  · have hcandidate : IsCandidate versions' requirements' = IsCandidate versions requirements := by
      funext v
      simp only [IsCandidate, hversions, hrequirements]
    apply Option.ext
    intro v
    rw [best?_eq_some, best?_eq_some, hcandidate]

/-- Pre-releases and builds with leading zeros, listed twice and in another order. -/
theorem best?_greatest_preReleases :
    let versions := ["1.0.0-rc.2", "oops", "1.0.0-rc.10+007", "1.0.0-rc.10+07", "0.9.0", "1.0.0-rc"]
    let versions' := ["1.0.0-rc.10+07", "1.0.0-rc", "1.0.0-rc.10+007", "0.9.0", "1.0.0-rc.2",
      "oops", "1.0.0-rc"]
    let first : Requirement :=
      ⟨[{ operator := .caret, major := 1, minor := some 0, patch := some 0, pre := ["alpha"] }]⟩
    let second : Requirement := ⟨[{ operator := .less, major := 1 }]⟩
    best? versions [first, second] =
        some { major := 1, minor := 0, patch := 0, pre := ["rc", "10"], build := ["007"] } ∧
      best? versions' [second, first] = best? versions [first, second] := by
  intro versions versions' first second
  exact ⟨by decide +kernel,
    (best?_greatest versions [first, second]).2.2 versions' [second, first] (by grind) (by grind)⟩

end Range

end ModuleForge
