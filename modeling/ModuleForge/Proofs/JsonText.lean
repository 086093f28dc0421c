import ModuleForge.Json.Decode
import ModuleForge.Json.Printer
import ModuleForge.Json.Reader
import Mathlib.Data.List.TakeDrop
import Mathlib.Data.List.TakeWhile

/-!
# JSON texts are read back

The text of a JSON value is read as the value (`Json.parse_compact`). Two kinds of values have no text
of their own and are left out: unusable ones, and numbers that are not read as they are written
(`Json.Number.ReadsBack`). All integers that are read at all are read back
(`Json.Number.readsBack_integer`), so only doubles can be such numbers.
-/

namespace ModuleForge.Json

variable {c : Char} {j : Json} {digits : List Char} {items : List Json} {n : Nat} {negative : Bool}

/-! ## Values by their parts -/

theorem induct {motive : Json → Prop} (null : motive .null) (bool : ∀ b, motive (.bool b))
    (number : ∀ n, motive (.number n)) (string : ∀ s, motive (.string s))
    (array : ∀ items, (∀ item ∈ items, motive item) → motive (.array items))
    (object : ∀ members, (∀ member ∈ members, motive member.2) → motive (.object members))
    (unusable : motive .unusable) (j : Json) : motive j :=
  @Json.rec motive (fun items => ∀ item ∈ items, motive item)
    (fun members => ∀ member ∈ members, motive member.2) (fun member => motive member.2)
    null bool number string array object unusable
    (fun _ h => absurd h List.not_mem_nil)
    (fun _ _ hitem hitems => List.forall_mem_cons.2 ⟨hitem, hitems⟩)
    (fun _ h => absurd h List.not_mem_nil)
    (fun _ _ hmember hmembers => List.forall_mem_cons.2 ⟨hmember, hmembers⟩)
    (fun _ _ hvalue => hvalue) j

theorem areUsableItems_iff :
    areUsableItems items = true ↔ ∀ item ∈ items, item.isUsable = true := by
  induction items with
  | nil => simp [areUsableItems]
  | cons item items ih => simp [areUsableItems, ih]

theorem areUsableMembers_iff {members : List (String × Json)} :
    areUsableMembers members = true ↔ ∀ member ∈ members, member.2.isUsable = true := by
  induction members with
  | nil => simp [areUsableMembers]
  | cons member members ih =>
    obtain ⟨key, value⟩ := member
    simp only [areUsableMembers, Bool.and_eq_true, ih, List.forall_mem_cons]

mutual

/-- The numbers inside a value. -/
def numbers : Json → List Number
  | .number n => [n]
  | .array items => numbersOfItems items
  | .object members => numbersOfMembers members
  | _ => []

def numbersOfItems : List Json → List Number
  | [] => []
  | item :: rest => numbers item ++ numbersOfItems rest

def numbersOfMembers : List (String × Json) → List Number
  | [] => []
  | (_, value) :: rest => numbers value ++ numbersOfMembers rest

end

theorem mem_numbersOfItems {n : Number} :
    n ∈ numbersOfItems items ↔ ∃ item ∈ items, n ∈ item.numbers := by
  induction items with
  | nil => simp [numbersOfItems]
  | cons item items ih => simp [numbersOfItems, ih]

theorem mem_numbersOfMembers {members : List (String × Json)} {n : Number} :
    n ∈ numbersOfMembers members ↔ ∃ member ∈ members, n ∈ member.2.numbers := by
  induction members with
  | nil => simp [numbersOfMembers]
  | cons member members ih =>
    obtain ⟨key, value⟩ := member
    simp only [numbersOfMembers, List.mem_append, ih, List.mem_cons, or_and_right, exists_or,
      exists_eq_left]

/-! ## Lists of partial steps -/

theorem mapM_map {α β : Type} {f : α → β} {g : β → Option α} {as : List α}
    (h : ∀ a ∈ as, g (f a) = some a) : (as.map f).mapM g = some as := by
  induction as with
  | nil => rfl
  | cons a as ih =>
    obtain ⟨ha, has⟩ := List.forall_mem_cons.1 h
    rw [List.map_cons, List.mapM_cons, ha, ih has]
    rfl

theorem exists_of_mem_mapM {α β : Type} {f : α → Option β} {as : List α} {bs : List β}
    (h : as.mapM f = some bs) {b : β} (hb : b ∈ bs) : ∃ a ∈ as, f a = some b := by
  induction as generalizing bs with
  | nil =>
    cases h
    cases hb
  | cons a as ih =>
    simp only [List.mapM_cons, Option.bind_eq_bind, Option.bind_eq_some_iff] at h
    obtain ⟨first, hfirst, rest, hrest, h⟩ := h
    cases h
    obtain rfl | hb := List.mem_cons.1 hb
    · exact ⟨a, List.mem_cons_self, hfirst⟩
    · obtain ⟨a', ha', hf⟩ := ih hrest hb
      exact ⟨a', List.mem_cons_of_mem _ ha', hf⟩

/-! ## Numbers -/

/-- A number before this text ends there. -/
def EndsNumber (rest : List Char) : Prop :=
  ∀ c ∈ rest.head?, c.isDigit = false ∧ c ≠ '.' ∧ c ≠ 'e' ∧ c ≠ 'E'

theorem endsNumber_nil : EndsNumber [] := by simp [EndsNumber]

theorem span_digits_append {cs rest : List Char} (hrest : EndsNumber rest) :
    (cs ++ rest).span Char.isDigit =
      ((cs.span Char.isDigit).1, (cs.span Char.isDigit).2 ++ rest) := by
  simp only [List.span_eq_takeWhile_dropWhile]
  induction cs with
  | nil =>
    cases rest with
    | nil => rfl
    | cons c rest => simp [(hrest c rfl).1]
  | cons c cs ih =>
    simp only [Prod.mk.injEq] at ih
    by_cases hc : c.isDigit = true
    · simp [hc, ih.1, ih.2]
    · simp [hc]

variable {cs rest left : List Char}

theorem readDigits_append (h : readDigits cs = some (digits, left)) (hrest : EndsNumber rest) :
    readDigits (cs ++ rest) = some (digits, left ++ rest) := by
  unfold readDigits at h ⊢
  rw [span_digits_append hrest]
  generalize cs.span Char.isDigit = parts at h ⊢
  obtain ⟨digits', left'⟩ := parts
  cases digits' with
  | nil => cases h
  | cons d ds => cases h; rfl

theorem readWhole_append (h : readWhole cs = some (digits, left)) (hrest : EndsNumber rest) :
    readWhole (cs ++ rest) = some (digits, left ++ rest) := by
  simp only [readWhole, Option.bind_eq_bind, Option.bind_eq_some_iff] at h ⊢
  obtain ⟨⟨read, after⟩, hread, h⟩ := h
  refine ⟨(read, after ++ rest), readDigits_append hread hrest, ?_⟩
  dsimp only at h ⊢
  split at h
  · cases h
  · cases h
    rfl

theorem readFraction_append {fraction : Option (List Char)}
    (h : readFraction cs = some (fraction, left)) (hrest : EndsNumber rest) :
    readFraction (cs ++ rest) = some (fraction, left ++ rest) := by
  unfold readFraction at h
  split at h
  · rename_i after
    simp only [Option.bind_eq_bind, Option.bind_eq_some_iff] at h
    obtain ⟨⟨digits, after'⟩, hread, h⟩ := h
    cases h
    simp [readFraction, readDigits_append hread hrest]
  · rename_i hpoint
    cases h
    unfold readFraction
    split
    · rename_i after heq
      cases cs with
      | nil => exact absurd rfl (hrest '.' (by simp_all)).2.1
      | cons c cs =>
        cases heq
        exact absurd rfl (hpoint cs)
    · rfl

theorem readSignedDigits_append {n : Int} (h : readSignedDigits cs = some (n, left))
    (hrest : EndsNumber rest) : readSignedDigits (cs ++ rest) = some (n, left ++ rest) := by
  unfold readSignedDigits at h
  split at h
  · obtain ⟨⟨digits, after⟩, hread, h⟩ := Option.map_eq_some_iff.1 h
    cases h
    simp [readSignedDigits, readDigits_append hread hrest]
  · obtain ⟨⟨digits, after⟩, hread, h⟩ := Option.map_eq_some_iff.1 h
    cases h
    simp [readSignedDigits, readDigits_append hread hrest]
  · rename_i hplus hminus
    obtain ⟨⟨digits, after⟩, hread, h⟩ := Option.map_eq_some_iff.1 h
    cases h
    cases cs with
    | nil => cases hread
    | cons c cs =>
      unfold readSignedDigits
      split
      · rename_i heq
        cases heq
        exact absurd rfl (hplus cs)
      · rename_i heq
        cases heq
        exact absurd rfl (hminus cs)
      · rw [readDigits_append hread hrest]
        rfl

theorem readExponent_append {exponent : Option Int}
    (h : readExponent cs = some (exponent, left)) (hrest : EndsNumber rest) :
    readExponent (cs ++ rest) = some (exponent, left ++ rest) := by
  unfold readExponent at h
  split at h
  · obtain ⟨⟨n, after⟩, hread, h⟩ := Option.map_eq_some_iff.1 h
    cases h
    simp [readExponent, readSignedDigits_append hread hrest]
  · obtain ⟨⟨n, after⟩, hread, h⟩ := Option.map_eq_some_iff.1 h
    cases h
    simp [readExponent, readSignedDigits_append hread hrest]
  · rename_i hsmall hlarge
    cases h
    unfold readExponent
    split
    · rename_i after heq
      cases cs with
      | nil => exact absurd rfl (hrest 'e' (by simp_all)).2.2.1
      | cons c cs =>
        cases heq
        exact absurd rfl (hsmall cs)
    · rename_i after heq
      cases cs with
      | nil => exact absurd rfl (hrest 'E' (by simp_all)).2.2.2
      | cons c cs =>
        cases heq
        exact absurd rfl (hlarge cs)
    · rfl

/-- The rest of a number literal behind its sign. -/
def readUnsigned (negative : Bool) (cs : List Char) : Option (Json × List Char) := do
  let (whole, rest) ← readWhole cs
  let (fraction, rest) ← readFraction rest
  let (exponent, rest) ← readExponent rest
  match numberOf negative whole fraction exponent with
  | some n => some (.number n, rest)
  | none => some (.unusable, rest)

theorem readNumber_minus (cs : List Char) : readNumber ('-' :: cs) = readUnsigned true cs := rfl

theorem readNumber_of_ne (h : ∀ after, cs ≠ '-' :: after) :
    readNumber cs = readUnsigned false cs := by
  unfold readNumber readUnsigned
  split
  rename_i heq
  split at heq
  · exact absurd rfl (h _)
  · cases heq
    rfl

theorem readUnsigned_append (h : readUnsigned negative cs = some (j, left))
    (hrest : EndsNumber rest) : readUnsigned negative (cs ++ rest) = some (j, left ++ rest) := by
  simp only [readUnsigned, Option.bind_eq_bind, Option.bind_eq_some_iff] at h ⊢
  obtain ⟨⟨whole, left1⟩, hwhole, ⟨fraction, left2⟩, hfraction, ⟨exponent, left3⟩, hexponent, h⟩ := h
  refine ⟨_, readWhole_append hwhole hrest, _, readFraction_append hfraction hrest, _,
    readExponent_append hexponent hrest, ?_⟩
  dsimp only at h ⊢
  cases hnumber : numberOf negative whole fraction exponent <;> rw [hnumber] at h <;> cases h <;> rfl

theorem readUnsigned_head (h : readUnsigned negative cs = some (j, left)) :
    ∃ c after, cs = c :: after ∧ c.isDigit = true := by
  simp only [readUnsigned, Option.bind_eq_bind, Option.bind_eq_some_iff] at h
  obtain ⟨⟨whole, left1⟩, hwhole, -⟩ := h
  simp only [readWhole, Option.bind_eq_bind, Option.bind_eq_some_iff] at hwhole
  obtain ⟨⟨digits, left2⟩, hdigits, -⟩ := hwhole
  cases cs with
  | nil => cases hdigits
  | cons c cs =>
    refine ⟨c, cs, rfl, ?_⟩
    by_contra hc
    simp [readDigits, List.span_eq_takeWhile_dropWhile, hc] at hdigits

theorem readNumber_head (h : readNumber cs = some (j, left)) :
    ∃ c after, cs = c :: after ∧ (c = '-' ∨ c.isDigit = true) := by
  by_cases hsign : ∃ after, cs = '-' :: after
  · obtain ⟨after, rfl⟩ := hsign
    exact ⟨'-', after, rfl, .inl rfl⟩
  · rw [readNumber_of_ne (not_exists.1 hsign)] at h
    obtain ⟨c, after, hcs, hc⟩ := readUnsigned_head h
    exact ⟨c, after, hcs, .inr hc⟩

theorem ne_of_numberHead {d : Char} (hc : c = '-' ∨ c.isDigit = true)
    (hd : d ≠ '-' ∧ d.isDigit = false) : c ≠ d := by
  rintro rfl
  obtain rfl | hc := hc
  · exact hd.1 rfl
  · rw [hd.2] at hc
    cases hc

theorem readNumber_append (h : readNumber cs = some (j, left)) (hrest : EndsNumber rest) :
    readNumber (cs ++ rest) = some (j, left ++ rest) := by
  by_cases hsign : ∃ after, cs = '-' :: after
  · obtain ⟨after, rfl⟩ := hsign
    exact readUnsigned_append h hrest
  · rw [readNumber_of_ne (not_exists.1 hsign)] at h
    obtain ⟨c, after, rfl, -⟩ := readUnsigned_head h
    rw [readNumber_of_ne fun after' heq => hsign ⟨after, by cases heq; rfl⟩]
    exact readUnsigned_append h hrest

/-- The text of the number is read as the number. -/
def Number.ReadsBack (n : Number) : Prop := readNumber n.text.toList = some (.number n, [])

theorem le_ofDigitChars (digits : List Char) (n : Nat) : n ≤ Nat.ofDigitChars 10 digits n := by
  induction digits generalizing n with
  | nil => exact Nat.le_refl n
  | cons c digits ih =>
    rw [Nat.ofDigitChars_cons]
    exact Nat.le_trans (by omega) (ih _)

theorem growSignificand_eq (h : Nat.ofDigitChars 10 digits n ≤ maxInteger) :
    growSignificand n digits = (Nat.ofDigitChars 10 digits n, []) := by
  induction digits generalizing n with
  | nil => rfl
  | cons c digits ih =>
    rw [Nat.ofDigitChars_cons] at h ⊢
    rw [growSignificand, Nat.mul_comm n 10]
    rw [if_pos (Nat.le_trans (le_ofDigitChars digits _) h), ih h]

theorem readDigits_toDigits (n : Nat) :
    readDigits (Nat.toDigits 10 n) = some (Nat.toDigits 10 n, []) := by
  have hall : ∀ c ∈ Nat.toDigits 10 n, c.isDigit = true := fun c hc =>
    Nat.isDigit_of_mem_toDigits (by decide) (by decide) hc
  obtain ⟨c, cs, hcs⟩ := List.exists_cons_of_ne_nil (Nat.toDigits_ne_nil (b := 10) (n := n))
  unfold readDigits
  rw [List.span_eq_takeWhile_dropWhile, List.takeWhile_eq_self_iff.2 hall,
    List.dropWhile_eq_nil_iff.2 hall, hcs]

/-- No number but zero is written with a zero first. -/
theorem head_toDigits (hn : 0 < n) (after : List Char) : Nat.toDigits 10 n ≠ '0' :: after := by
  induction n using Nat.strongRecOn generalizing after with
  | ind n ih =>
    obtain hlt | hge := Nat.lt_or_ge n 10
    · rw [Nat.toDigits_of_lt_base hlt]
      intro h
      injection h with h _
      have hdigit : ∀ d < 10, Nat.digitChar d = '0' → d = 0 := by decide
      have := hdigit n hlt h
      omega
    · rw [Nat.toDigits_of_base_le (by decide) hge]
      obtain ⟨c, cs, hcs⟩ := List.exists_cons_of_ne_nil (Nat.toDigits_ne_nil (b := 10) (n := n / 10))
      rw [hcs]
      intro h
      injection h with h _
      exact ih (n / 10) (by omega) (by omega) cs (by rw [hcs, h])

theorem readWhole_toDigits (n : Nat) :
    readWhole (Nat.toDigits 10 n) = some (Nat.toDigits 10 n, []) := by
  unfold readWhole
  rw [readDigits_toDigits]
  dsimp only [Option.bind_eq_bind, Option.bind_some]
  split
  · rename_i c after heq
    obtain rfl | hn := Nat.eq_zero_or_pos n
    · cases heq
    · exact absurd heq (head_toDigits hn _)
  · rfl

theorem readUnsigned_toDigits {number : Number}
    (h : numberOf negative (Nat.toDigits 10 n) none none = some number) :
    readUnsigned negative (Nat.toDigits 10 n) = some (.number number, []) := by
  simp [readUnsigned, readWhole_toDigits, readFraction, readExponent, h]

theorem growSignificand_toDigits (h : n ≤ maxInteger) :
    growSignificand 0 (Nat.toDigits 10 n) = (n, []) := by
  have hvalue : Nat.ofDigitChars 10 (Nat.toDigits 10 n) 0 = n := Nat.ofDigitChars_ten_toDigits
  rw [growSignificand_eq (by rwa [hvalue]), hvalue]

/-- An integer of 64 bits, with or without sign. -/
def Number.IsWord (n : Int) : Prop := -(Nat.pow 2 63 : Int) ≤ n ∧ n < (Nat.pow 2 64 : Int)

theorem Number.isWord_iff {n : Int} :
    IsWord n ↔ -9223372036854775808 ≤ n ∧ n < 18446744073709551616 := Iff.rfl

theorem text_natural (n : Nat) :
    (Number.integer (Int.ofNat n)).text.toList = Nat.toDigits 10 n := by
  have htext : (Number.integer (Int.ofNat n)).text = toString n := rfl
  rw [htext, Nat.toString_eq_ofList_toDigits, String.toList_ofList]

theorem text_negative (n : Nat) :
    (Number.integer (Int.negSucc n)).text.toList = '-' :: Nat.toDigits 10 (n + 1) := by
  have htext : (Number.integer (Int.negSucc n)).text = "-" ++ toString (n + 1) := rfl
  have hdigits : (toString (n + 1)).toList = Nat.toDigits 10 (n + 1) := by
    rw [Nat.toString_eq_ofList_toDigits, String.toList_ofList]
  rw [htext, String.toList_append, hdigits]
  rfl

/-- **Every integer of 64 bits is read as it is written.** -/
theorem Number.readsBack_integer {n : Int} (h : Number.IsWord n) : (Number.integer n).ReadsBack := by
  rw [isWord_iff] at h
  unfold ReadsBack
  cases n with
  | ofNat n =>
    have hn : n ≤ maxInteger := by
      have : (n : Int) < 18446744073709551616 := h.2
      simp only [maxInteger, Nat.pow_eq]
      omega
    have hsign : ∀ after, Nat.toDigits 10 n ≠ '-' :: after := by
      intro after heq
      have hdigit := Nat.isDigit_of_mem_toDigits (b := 10) (n := n) (c := '-') (by decide) (by decide)
        (by rw [heq]; exact List.mem_cons_self)
      cases hdigit
    rw [text_natural, readNumber_of_ne hsign]
    refine readUnsigned_toDigits ?_
    simp [numberOf, growSignificand_toDigits hn]
  | negSucc n =>
    have hn : n + 1 ≤ Nat.pow 2 63 := by
      have := h.1
      simp only [Nat.pow_eq]
      omega
    have hmax : n + 1 ≤ maxInteger := by
      simp only [maxInteger, Nat.pow_eq] at hn ⊢
      omega
    rw [text_negative, readNumber_minus]
    refine readUnsigned_toDigits ?_
    simp only [Nat.pow_eq] at hn
    simp [numberOf, growSignificand_toDigits hmax, hn, Int.negSucc_eq]

/-! ## Strings -/

theorem hexValue?_hexDigit : ∀ n < 16, hexValue? (Text.hexDigit n) = some n := by decide

theorem readUnits_escape {e : Char} (hne : e ≠ 'u') (h : escaped? e = some c) (cs : List Char) :
    readUnits ('\\' :: e :: cs) = (readUnits cs).map fun read => (.inl c :: read.1, read.2) := by
  have hread : readUnits ('\\' :: e :: cs) = (escaped? e).bind fun c =>
      (readUnits cs).bind fun read => some (.inl c :: read.1, read.2) := by
    rw [readUnits]
    · rfl
    · intro a b c d rest heq
      exact absurd heq hne
  rw [hread, h]
  cases readUnits cs <;> rfl

theorem readUnits_plain (hquote : c ≠ '"') (hslash : c ≠ '\\') (hspace : 0x20 ≤ c.toNat)
    (cs : List Char) :
    readUnits (c :: cs) = (readUnits cs).map fun read => (.inl c :: read.1, read.2) := by
  have hplain : (decide (c.toNat < 0x20) || c == '\\') = false := by
    simp only [Bool.or_eq_false_iff, decide_eq_false_iff_not, beq_eq_false_iff_ne]
    exact ⟨by omega, hslash⟩
  rw [readUnits.eq_def]
  split
  · rename_i heq; cases heq
  · rename_i heq; cases heq; exact absurd rfl hquote
  · rename_i heq; cases heq; exact absurd rfl hslash
  · rename_i heq; cases heq; exact absurd rfl hslash
  · rename_i heq
    cases heq
    rw [hplain]
    cases readUnits cs <;> rfl

theorem joinUnits_unit (h : n < 0x20) (units : List (Char ⊕ Nat)) :
    joinUnits (.inr n :: units) = (joinUnits units).map (Char.ofNat n :: ·) := by
  have hhigh : isHighSurrogate n = false := by simp [isHighSurrogate]; omega
  have hlow : isLowSurrogate n = false := by simp [isLowSurrogate]; omega
  cases units with
  | nil => simp [joinUnits, hhigh, hlow]
  | cons unit units => cases unit <;> simp [joinUnits, hhigh, hlow]

theorem readUnits_hex (h : n < 0x20) (cs : List Char) :
    readUnits ('\\' :: 'u' :: '0' :: '0' :: Text.hexDigit (n / 16) :: Text.hexDigit (n % 16) :: cs) =
      (readUnits cs).map fun read => (.inr n :: read.1, read.2) := by
  have hzero : hexValue? '0' = some 0 := by decide
  have hunit : ((0 * 16 + 0) * 16 + n / 16) * 16 + n % 16 = n := by omega
  rw [readUnits]
  simp only [hzero, hexValue?_hexDigit (n / 16) (by omega), hexValue?_hexDigit (n % 16) (by omega),
    Option.bind_eq_bind, Option.bind_some, hunit]
  cases readUnits cs <;> rfl

/-- A character is read as it is quoted, as one unit that stands for it. -/
theorem readUnits_quoteChar (c : Char) :
    ∃ unit, (∀ cs, readUnits (Text.quoteChar c ++ cs) =
        (readUnits cs).map fun read => (unit :: read.1, read.2)) ∧
      ∀ units, joinUnits (unit :: units) = (joinUnits units).map (c :: ·) := by
  have hquoted := Text.quotedAs_quoteChar c
  generalize Text.quoteChar c = text at hquoted ⊢
  cases hquoted with
  | letter hd =>
    have htable : ∀ x ∈ Text.letterEscapes, x.2 ≠ 'u' ∧ escaped? x.2 = some x.1 := by decide
    obtain ⟨hu, hletter⟩ := htable _ hd
    exact ⟨.inl c, readUnits_escape hu hletter, fun _ => rfl⟩
  | control hlow =>
    refine ⟨.inr c.toNat, readUnits_hex hlow, fun units => ?_⟩
    rw [joinUnits_unit hlow, Char.ofNat_toNat]
  | plain hquote hslash hspace =>
    exact ⟨.inl c, readUnits_plain hquote hslash hspace, fun _ => rfl⟩

theorem readUnits_quoteChars (cs rest : List Char) :
    ∃ units, readUnits (Text.quoteChars cs ++ '"' :: rest) = some (units, rest) ∧
      joinUnits units = some cs := by
  induction cs with
  | nil => exact ⟨[], rfl, rfl⟩
  | cons c cs ih =>
    obtain ⟨units, hread, hjoin⟩ := ih
    obtain ⟨unit, hunit, hjoinUnit⟩ := readUnits_quoteChar c
    refine ⟨unit :: units, ?_, by rw [hjoinUnit, hjoin]; rfl⟩
    rw [Text.quoteChars, List.append_assoc, hunit, hread]
    rfl

theorem toList_quoted (s : String) :
    (quoted s).toList = '"' :: (Text.quoteChars s.toList ++ ['"']) := by
  rw [quoted, String.toList_ofList, Text.quote]
  rfl

theorem readText_quoted (s : String) (rest : List Char) :
    readText (Text.quoteChars s.toList ++ '"' :: rest) = some (some s, rest) := by
  obtain ⟨units, hread, hjoin⟩ := readUnits_quoteChars s.toList rest
  simp [readText, hread, hjoin]

/-! ## Values -/

@[simp]
theorem toList_compact_array (items : List Json) :
    (compact (.array items)).toList = '[' :: ((compactItems items).toList ++ [']']) := by
  rw [compact, String.toList_append, String.toList_append]
  rfl

@[simp]
theorem toList_compact_object (members : List (String × Json)) :
    (compact (.object members)).toList = '\x7b' :: ((compactMembers members).toList ++ ['\x7d']) := by
  rw [compact, String.toList_append, String.toList_append]
  rfl

theorem toList_compactItems_cons (item next : Json) (items : List Json) :
    (compactItems (item :: next :: items)).toList =
      (compact item).toList ++ ',' :: (compactItems (next :: items)).toList := by
  rw [compactItems, String.toList_append, String.toList_append, List.append_assoc]
  · rfl
  · simp

theorem toList_compactMembers_one (key : String) (value : Json) :
    (compactMembers [(key, value)]).toList =
      '"' :: (Text.quoteChars key.toList ++ '"' :: ':' :: (compact value).toList) := by
  rw [compactMembers, String.toList_append, String.toList_append, toList_quoted]
  simp

theorem toList_compactMembers_cons (key : String) (value : Json) (next : String × Json)
    (members : List (String × Json)) :
    (compactMembers ((key, value) :: next :: members)).toList =
      '"' :: (Text.quoteChars key.toList ++ '"' :: ':' :: ((compact value).toList ++
        ',' :: (compactMembers (next :: members)).toList)) := by
  rw [compactMembers]
  · simp [toList_quoted]
  · simp

/-- A value that has a text of its own. -/
def HasText (j : Json) : Prop := j.isUsable = true ∧ ∀ n ∈ j.numbers, n.ReadsBack

theorem hasText_array : HasText (.array items) ↔ ∀ item ∈ items, HasText item := by
  simp only [HasText, isUsable, numbers, areUsableItems_iff, mem_numbersOfItems]
  exact ⟨fun h item hitem => ⟨h.1 item hitem, fun n hn => h.2 n ⟨item, hitem, hn⟩⟩,
    fun h => ⟨fun item hitem => (h item hitem).1, fun n ⟨item, hitem, hn⟩ => (h item hitem).2 n hn⟩⟩

theorem hasText_object {members : List (String × Json)} :
    HasText (.object members) ↔ ∀ member ∈ members, HasText member.2 := by
  simp only [HasText, isUsable, numbers, areUsableMembers_iff, mem_numbersOfMembers]
  exact ⟨fun h m hm => ⟨h.1 m hm, fun n hn => h.2 n ⟨m, hm, hn⟩⟩,
    fun h => ⟨fun m hm => (h m hm).1, fun n ⟨m, hm, hn⟩ => (h m hm).2 n hn⟩⟩

/-- The text of a value starts with a character that is neither blank nor a closing bracket. -/
theorem HasText.head {j : Json} (h : HasText j) :
    ∃ c cs, j.compact.toList = c :: cs ∧ isBlank c = false ∧ c ≠ ']' := by
  cases j with
  | null => exact ⟨'n', "ull".toList, by decide, by decide, by decide⟩
  | bool b =>
    cases b with
    | false => exact ⟨'f', "alse".toList, by decide, by decide, by decide⟩
    | true => exact ⟨'t', "rue".toList, by decide, by decide, by decide⟩
  | number n =>
    obtain ⟨c, cs, hcs, hc⟩ := readNumber_head (h.2 n (by simp [numbers]))
    refine ⟨c, cs, hcs, ?_, ne_of_numberHead hc (by decide)⟩
    simp [isBlank, ne_of_numberHead hc]
  | string s => exact ⟨'"', _, by rw [compact]; exact toList_quoted s, by decide, by decide⟩
  | array items => exact ⟨'[', _, toList_compact_array items, by decide, by decide⟩
  | object members => exact ⟨'\x7b', _, toList_compact_object members, by decide, by decide⟩
  | unusable => cases h.1

theorem head_compactItems {item : Json} (h : HasText item) (items : List Json) :
    ∃ c cs, (compactItems (item :: items)).toList = c :: cs ∧ isBlank c = false ∧ c ≠ ']' := by
  obtain ⟨c, cs, hhead, hc⟩ := h.head
  cases items with
  | nil => exact ⟨c, cs, by rw [compactItems, hhead], hc⟩
  | cons next items =>
    exact ⟨c, _, by rw [toList_compactItems_cons, hhead, List.cons_append], hc⟩

theorem head_compactMembers (member : String × Json) (members : List (String × Json)) :
    ∃ cs, (compactMembers (member :: members)).toList = '"' :: cs := by
  obtain ⟨key, value⟩ := member
  cases members with
  | nil => exact ⟨_, toList_compactMembers_one key value⟩
  | cons next members => exact ⟨_, toList_compactMembers_cons key value next members⟩

theorem skipBlanks_cons (h : isBlank c = false) (cs : List Char) :
    skipBlanks (c :: cs) = c :: cs := by
  simp [skipBlanks, h]

theorem readValue_number (hc : c = '-' ∨ c.isDigit = true) (fuel : Nat) (cs : List Char) :
    readValue (fuel + 1) (c :: cs) = readNumber (c :: cs) := by
  rw [readValue.eq_def]
  dsimp only
  split
  case h_8 => rfl
  all_goals
    rename_i heq
    cases heq
  all_goals exact absurd rfl (ne_of_numberHead hc (by decide))

theorem objectOf_some (members : List (String × Json)) :
    objectOf (members.map fun member => (some member.1, member.2)) = .object members := by
  rw [objectOf, mapM_map]
  exact fun _ _ => rfl

/-- The text of a value is read as the value, whatever follows it. The bound on the fuel is what the
recursion uses: a value and a list of values take turns, and each turn has a character. -/
def IsRead (j : Json) : Prop :=
  ∀ fuel rest, EndsNumber rest → 2 * j.compact.toList.length ≤ fuel →
    readValue fuel (j.compact.toList ++ rest) = some (j, rest)

theorem endsNumber_comma (rest : List Char) : EndsNumber (',' :: rest) := by
  rintro c ⟨⟩; decide

theorem endsNumber_bracket (rest : List Char) : EndsNumber (']' :: rest) := by
  rintro c ⟨⟩; decide

theorem endsNumber_brace (rest : List Char) : EndsNumber ('\x7d' :: rest) := by
  rintro c ⟨⟩; decide

section
variable {fuel : Nat} {item value : Json} {after rest : List Char} {key : String}

theorem readItems_last (h : readValue fuel cs = some (item, ']' :: rest)) :
    readItems (fuel + 1) cs = some ([item], rest) := by
  rw [readItems, h]
  rfl

theorem readItems_more (h : readValue fuel cs = some (item, ',' :: rest)) :
    readItems (fuel + 1) cs =
      (readItems fuel (skipBlanks rest)).map fun read => (item :: read.1, read.2) := by
  rw [readItems, h]
  rfl

theorem readValue_array (hblank : isBlank c = false) (hne : c ≠ ']')
    (h : readItems fuel (c :: after) = some (items, rest)) :
    readValue (fuel + 1) ('[' :: c :: after) = some (.array items, rest) := by
  have hskip : skipBlanks (c :: after) = c :: after := skipBlanks_cons hblank after
  simp [readValue, hskip, hne, h]

theorem readValue_object {members : List (Option String × Json)}
    (h : readMembers fuel ('"' :: after) = some (members, rest)) :
    readValue (fuel + 1) ('\x7b' :: '"' :: after) = some (objectOf members, rest) := by
  have hskip : skipBlanks ('"' :: after) = '"' :: after := skipBlanks_cons (by decide) after
  simp [readValue, hskip, h]

theorem readMembers_last (h : readValue fuel (skipBlanks after) = some (value, '\x7d' :: rest)) :
    readMembers (fuel + 1) ('"' :: (Text.quoteChars key.toList ++ '"' :: ':' :: after)) =
      some ([(some key, value)], rest) := by
  have hcolon : skipBlanks (':' :: after) = ':' :: after := skipBlanks_cons (by decide) after
  have hbrace : skipBlanks ('\x7d' :: rest) = '\x7d' :: rest := skipBlanks_cons (by decide) rest
  simp [readMembers, readText_quoted, hcolon, h, hbrace]

theorem readMembers_more (h : readValue fuel (skipBlanks after) = some (value, ',' :: rest)) :
    readMembers (fuel + 1) ('"' :: (Text.quoteChars key.toList ++ '"' :: ':' :: after)) =
      (readMembers fuel (skipBlanks rest)).map fun read => ((some key, value) :: read.1, read.2) := by
  have hcolon : skipBlanks (':' :: after) = ':' :: after := skipBlanks_cons (by decide) after
  have hcomma : skipBlanks (',' :: rest) = ',' :: rest := skipBlanks_cons (by decide) rest
  simp [readMembers, readText_quoted, hcolon, h, hcomma]

end

theorem readItems_compactItems (htext : ∀ item ∈ items, HasText item)
    (hread : ∀ item ∈ items, IsRead item) (hne : items ≠ []) (rest : List Char) {fuel : Nat}
    (hfuel : 2 * (compactItems items).toList.length + 1 ≤ fuel) :
    readItems fuel ((compactItems items).toList ++ ']' :: rest) = some (items, rest) := by
  induction items generalizing fuel with
  | nil => exact absurd rfl hne
  | cons item items ih =>
    obtain ⟨hitem, hitems⟩ := List.forall_mem_cons.1 hread
    obtain ⟨fuel, rfl⟩ : ∃ f, fuel = f + 1 := ⟨fuel - 1, by omega⟩
    cases items with
    | nil =>
      rw [compactItems] at hfuel ⊢
      exact readItems_last (hitem fuel _ (endsNumber_bracket rest) (by omega))
    | cons next items =>
      have htexts := (List.forall_mem_cons.1 htext).2
      obtain ⟨c, cs, hhead, hblank, -⟩ := head_compactItems (htexts next List.mem_cons_self) items
      have hskip : skipBlanks ((compactItems (next :: items)).toList ++ ']' :: rest) =
          (compactItems (next :: items)).toList ++ ']' :: rest := by
        rw [hhead, List.cons_append, skipBlanks_cons hblank]
      rw [toList_compactItems_cons, List.length_append, List.length_cons] at hfuel
      rw [toList_compactItems_cons, List.append_assoc, List.cons_append,
        readItems_more (hitem fuel _ (endsNumber_comma _) (by omega)), hskip,
        ih htexts hitems (by simp) (by omega)]
      rfl

theorem readMembers_compactMembers {members : List (String × Json)}
    (htext : ∀ member ∈ members, HasText member.2) (hread : ∀ member ∈ members, IsRead member.2)
    (hne : members ≠ []) (rest : List Char) {fuel : Nat}
    (hfuel : 2 * (compactMembers members).toList.length + 1 ≤ fuel) :
    readMembers fuel ((compactMembers members).toList ++ '\x7d' :: rest) =
      some (members.map fun member => (some member.1, member.2), rest) := by
  induction members generalizing fuel with
  | nil => exact absurd rfl hne
  | cons member members ih =>
    obtain ⟨key, value⟩ := member
    obtain ⟨hvalue, hvalues⟩ := List.forall_mem_cons.1 hread
    obtain ⟨fuel, rfl⟩ : ∃ f, fuel = f + 1 := ⟨fuel - 1, by omega⟩
    obtain ⟨c, cs, hhead, hblank, -⟩ := (htext (key, value) List.mem_cons_self).head
    have hskip (after : List Char) :
        skipBlanks (value.compact.toList ++ after) = value.compact.toList ++ after := by
      rw [hhead, List.cons_append, skipBlanks_cons hblank]
    cases members with
    | nil =>
      rw [toList_compactMembers_one] at hfuel ⊢
      simp only [List.length_cons, List.length_append] at hfuel
      simp only [List.cons_append, List.append_assoc]
      refine readMembers_last ?_
      rw [hskip]
      exact hvalue fuel _ (endsNumber_brace rest) (by dsimp only; omega)
    | cons next members =>
      have htexts := (List.forall_mem_cons.1 htext).2
      obtain ⟨cs', hquote⟩ := head_compactMembers next members
      have hskipNext : skipBlanks ((compactMembers (next :: members)).toList ++ '\x7d' :: rest) =
          (compactMembers (next :: members)).toList ++ '\x7d' :: rest := by
        rw [hquote, List.cons_append, skipBlanks_cons (by decide)]
      have hvalueRead := hvalue fuel
        (',' :: ((compactMembers (next :: members)).toList ++ '\x7d' :: rest)) (endsNumber_comma _)
      rw [toList_compactMembers_cons] at hfuel ⊢
      simp only [List.length_cons, List.length_append] at hfuel
      simp only [List.cons_append, List.append_assoc]
      rw [readMembers_more (by rw [hskip]; exact hvalueRead (by dsimp only; omega)), hskipNext,
        ih htexts hvalues (by simp) (by omega)]
      rfl

/-- **The text of a value is read as the value.** -/
theorem HasText.isRead (h : HasText j) : IsRead j := by
  induction j using Json.induct with
  | null =>
    intro fuel rest _ hfuel
    obtain ⟨fuel, rfl⟩ : ∃ f, fuel = f + 1 := ⟨fuel - 1, by simp [compact] at hfuel; omega⟩
    simp [compact, readValue, readWord]
  | bool b =>
    intro fuel rest _ hfuel
    obtain ⟨fuel, rfl⟩ : ∃ f, fuel = f + 1 :=
      ⟨fuel - 1, by cases b <;> simp [compact] at hfuel <;> omega⟩
    cases b <;> simp [compact, readValue, readWord]
  | number n =>
    intro fuel rest hrest hfuel
    have hback : readNumber n.text.toList = some (.number n, []) := h.2 n (by simp [numbers])
    obtain ⟨c, cs, hcs, hc⟩ := readNumber_head hback
    rw [compact] at hfuel ⊢
    obtain ⟨fuel, rfl⟩ : ∃ f, fuel = f + 1 := ⟨fuel - 1, by simp [hcs] at hfuel; omega⟩
    have hread := readNumber_append hback hrest
    rw [hcs, List.cons_append] at hread ⊢
    rw [readValue_number hc, hread]
    rfl
  | string s =>
    intro fuel rest _ hfuel
    rw [compact, toList_quoted] at hfuel ⊢
    obtain ⟨fuel, rfl⟩ : ∃ f, fuel = f + 1 := ⟨fuel - 1, by simp at hfuel; omega⟩
    simp [readValue, readText_quoted]
  | array items ih =>
    intro fuel rest _ hfuel
    have htext := hasText_array.1 h
    rw [toList_compact_array] at hfuel ⊢
    simp only [List.length_cons, List.length_append, List.length_nil] at hfuel
    obtain ⟨fuel, rfl⟩ : ∃ f, fuel = f + 1 := ⟨fuel - 1, by omega⟩
    simp only [List.cons_append, List.append_assoc, List.nil_append]
    cases items with
    | nil => rfl
    | cons item items =>
      obtain ⟨c, cs, hhead, hblank, hne⟩ := head_compactItems (htext item List.mem_cons_self) items
      have hitems := readItems_compactItems htext (fun i hi => ih i hi (htext i hi)) (by simp) rest
        (show _ ≤ fuel by omega)
      rw [hhead, List.cons_append] at hitems ⊢
      exact readValue_array hblank hne hitems
  | object members ih =>
    intro fuel rest _ hfuel
    have htext := hasText_object.1 h
    rw [toList_compact_object] at hfuel ⊢
    simp only [List.length_cons, List.length_append, List.length_nil] at hfuel
    obtain ⟨fuel, rfl⟩ : ∃ f, fuel = f + 1 := ⟨fuel - 1, by omega⟩
    simp only [List.cons_append, List.append_assoc, List.nil_append]
    cases members with
    | nil => rfl
    | cons member members =>
      obtain ⟨cs, hhead⟩ := head_compactMembers member members
      have hmembers := readMembers_compactMembers htext (fun m hm => ih m hm (htext m hm)) (by simp)
        rest (show _ ≤ fuel by omega)
      rw [hhead, List.cons_append] at hmembers ⊢
      rw [readValue_object hmembers, objectOf_some]
  | unusable => cases h.1

/-- **The text of a value denotes the value.** -/
theorem parse_compact (h : HasText j) : parse j.compact = some j := by
  obtain ⟨c, cs, hhead, hblank, -⟩ := h.head
  have hskip : skipBlanks j.compact.toList = j.compact.toList := by
    rw [hhead, skipBlanks_cons hblank]
  have hread := h.isRead (2 * j.compact.toList.length + 2) [] endsNumber_nil (by omega)
  rw [List.append_nil] at hread
  rw [parse, hskip]
  dsimp only
  rw [hread]
  rfl

/-! ## Integers that are read -/

/-- The number fits in its 64 bits. -/
def Number.Fits : Number → Prop
  | .integer n => IsWord n
  | .double _ => True

/-- All numbers inside fit in their 64 bits. -/
def NumbersFit (j : Json) : Prop := ∀ n ∈ j.numbers, n.Fits

theorem numbersFit_array : NumbersFit (.array items) ↔ ∀ item ∈ items, NumbersFit item := by
  simp only [NumbersFit, numbers, mem_numbersOfItems]
  exact ⟨fun h item hitem n hn => h n ⟨item, hitem, hn⟩,
    fun h n ⟨item, hitem, hn⟩ => h item hitem n hn⟩

theorem numbersFit_object {members : List (String × Json)} :
    NumbersFit (.object members) ↔ ∀ member ∈ members, NumbersFit member.2 := by
  simp only [NumbersFit, numbers, mem_numbersOfMembers]
  exact ⟨fun h m hm n hn => h n ⟨m, hm, hn⟩, fun h n ⟨m, hm, hn⟩ => h m hm n hn⟩

theorem growSignificand_le (digits : List Char) (h : n ≤ maxInteger) :
    (growSignificand n digits).1 ≤ maxInteger := by
  induction digits generalizing n with
  | nil => exact h
  | cons c digits ih =>
    rw [growSignificand]
    split
    · exact ih ‹_›
    · exact h

theorem numberOf_fits {whole : List Char} {fraction : Option (List Char)} {exponent : Option Int}
    {n : Number} (h : numberOf negative whole fraction exponent = some n) : n.Fits := by
  have hle := growSignificand_le whole (Nat.zero_le maxInteger)
  simp only [maxInteger, Nat.pow_eq] at hle
  unfold numberOf at h
  generalize growSignificand 0 whole = grown at h hle
  obtain ⟨significand, surplus⟩ := grown
  dsimp only at h hle
  split at h
  · cases h
    exact Number.isWord_iff.2 ⟨by omega, by omega⟩
  · split at h
    · rename_i hcond
      simp only [Bool.and_eq_true, decide_eq_true_eq, Nat.pow_eq] at hcond
      cases h
      exact Number.isWord_iff.2 ⟨by omega, by omega⟩
    · obtain ⟨d, -, rfl⟩ := Option.map_eq_some_iff.1 h
      trivial

theorem readNumber_fits (h : readNumber cs = some (j, left)) : NumbersFit j := by
  have hunsigned {negative : Bool} {cs : List Char}
      (h : readUnsigned negative cs = some (j, left)) : NumbersFit j := by
    simp only [readUnsigned, Option.bind_eq_bind, Option.bind_eq_some_iff] at h
    obtain ⟨⟨whole, left1⟩, -, ⟨fraction, left2⟩, -, ⟨exponent, left3⟩, -, h⟩ := h
    dsimp only at h
    split at h
    · rename_i number hnumber
      cases h
      intro n hn
      obtain rfl := List.mem_singleton.1 hn
      exact numberOf_fits hnumber
    · cases h
      intro n hn
      cases hn
  by_cases hsign : ∃ after, cs = '-' :: after
  · obtain ⟨after, rfl⟩ := hsign
    exact hunsigned h
  · rw [readNumber_of_ne (not_exists.1 hsign)] at h
    exact hunsigned h

theorem numbersFit_of_isEmpty (h : j.numbers = []) : NumbersFit j := by
  intro n hn
  rw [h] at hn
  cases hn

theorem objectOf_fits {members : List (Option String × Json)}
    (h : ∀ member ∈ members, NumbersFit member.2) : NumbersFit (objectOf members) := by
  unfold objectOf
  split
  · rename_i named hnamed
    refine numbersFit_object.2 fun member hmember => ?_
    obtain ⟨m, hm, hkey⟩ := exists_of_mem_mapM hnamed hmember
    obtain ⟨key, -, rfl⟩ := Option.map_eq_some_iff.1 hkey
    exact h m hm
  · exact numbersFit_of_isEmpty rfl

/-- All numbers that are read fit: values, items and members together, by induction on the fuel. -/
theorem readValue_fits (fuel : Nat) :
    (∀ cs j rest, readValue fuel cs = some (j, rest) → NumbersFit j) ∧
    (∀ cs items rest, readItems fuel cs = some (items, rest) → ∀ item ∈ items, NumbersFit item) ∧
    ∀ cs members rest, readMembers fuel cs = some (members, rest) →
      ∀ member ∈ members, NumbersFit member.2 := by
  induction fuel with
  | zero => simp [readValue, readItems, readMembers]
  | succ fuel ih =>
    obtain ⟨hvalue, hitems, hmembers⟩ := ih
    refine ⟨fun cs j rest h => ?_, fun cs items rest h => ?_, fun cs members rest h => ?_⟩
    · rw [readValue.eq_def] at h
      dsimp only at h
      split at h
      · cases h
      iterate 3
        · obtain ⟨after, -, h⟩ := Option.map_eq_some_iff.1 h
          cases h
          exact numbersFit_of_isEmpty rfl
      · obtain ⟨⟨text, after⟩, -, h⟩ := Option.map_eq_some_iff.1 h
        cases h
        cases text <;> exact numbersFit_of_isEmpty rfl
      · split at h
        · cases h
          exact numbersFit_of_isEmpty rfl
        · obtain ⟨⟨items, after⟩, hread, h⟩ := Option.map_eq_some_iff.1 h
          cases h
          exact numbersFit_array.2 (hitems _ _ _ hread)
      · split at h
        · cases h
          exact numbersFit_of_isEmpty rfl
        · obtain ⟨⟨members, after⟩, hread, h⟩ := Option.map_eq_some_iff.1 h
          cases h
          exact objectOf_fits (hmembers _ _ _ hread)
      · exact readNumber_fits h
    · rw [readItems] at h
      split at h
      · cases h
      · rename_i item after hread
        split at h
        · cases h
          exact List.forall_mem_singleton.2 (hvalue _ _ _ hread)
        · obtain ⟨⟨more, after⟩, hmore, h⟩ := Option.map_eq_some_iff.1 h
          cases h
          exact List.forall_mem_cons.2 ⟨hvalue _ _ _ hread, hitems _ _ _ hmore⟩
        · cases h
    · rw [readMembers.eq_def] at h
      dsimp only at h
      split at h
      · split at h
        · cases h
        · split at h
          · split at h
            · cases h
            · rename_i value after hread
              split at h
              · cases h
                exact List.forall_mem_singleton.2 (hvalue _ _ _ hread)
              · obtain ⟨⟨more, after⟩, hmore, h⟩ := Option.map_eq_some_iff.1 h
                cases h
                exact List.forall_mem_cons.2 ⟨hvalue _ _ _ hread, hmembers _ _ _ hmore⟩
              · cases h
          · cases h
      · cases h

/-- **All integers of a text fit in 64 bits.** -/
theorem numbersFit_of_parse {text : String} (h : parse text = some j) : NumbersFit j := by
  simp only [parse, Option.bind_eq_bind, Option.bind_eq_some_iff] at h
  obtain ⟨⟨value, rest⟩, hread, h⟩ := h
  split at h
  · cases h
    exact (readValue_fits _).1 _ _ _ hread
  · cases h

end ModuleForge.Json
