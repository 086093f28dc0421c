import ModuleForge.Package.Address
import ModuleForge.Package.Version
import ModuleForge.Proofs.Entries
import Mathlib.Data.List.TakeDrop
import Mathlib.Data.List.TakeWhile

/-!
# What an address tells

A set of packages is given as a list of pairs, in any order and with repetitions. Its two addresses
depend on the set alone. The builder's address tells the set: percent encoding, the sign between the
pairs and the at sign inside each of them can all be undone. The store's address tells the versions
and the flattened names, so it tells the set unless two names differ in their scopes' signs only.

- `Text.intercalate_injective`: parts without separator are read back from their join.
- `PackageSet.encodeComponent_injective`: a component is read back from its encoding.
- `PackageSet.entries_eq_of_queryAddress_eq`, `PackageSet.sameFlat_of_storeAddress_eq`: what the two
  addresses tell.
-/

namespace ModuleForge

/-! ## Texts with separators -/

namespace Text

/-- The text is empty or goes on with the character. -/
def OpensWith (s : Char) (cs : List Char) : Prop := ∀ c ∈ cs.head?, c = s

/-- Two texts that have no separator before the first one are cut apart at the same place. -/
theorem append_inj_of_opensWith {s : Char} {x y t u : List Char} (hx : s ∉ x) (hy : s ∉ y)
    (ht : OpensWith s t) (hu : OpensWith s u) (h : x ++ t = y ++ u) : x = y ∧ t = u := by
  induction x generalizing y with
  | nil =>
    cases y with
    | nil => exact ⟨rfl, h⟩
    | cons d y =>
      obtain rfl : t = d :: (y ++ u) := h
      exact absurd (ht d rfl) fun hd => hy (by simp [hd])
  | cons c x ih =>
    cases y with
    | nil =>
      obtain rfl : c :: (x ++ t) = u := h
      exact absurd (hu c rfl) fun hc => hx (by simp [hc])
    | cons d y =>
      rw [List.cons_append, List.cons_append, List.cons.injEq] at h
      obtain ⟨rfl, htail⟩ := h
      obtain ⟨rfl, rfl⟩ := ih (fun hm => hx (.tail _ hm)) (fun hm => hy (.tail _ hm)) htail
      exact ⟨rfl, rfl⟩

theorem intercalate_cons (sep x : List Char) (xs : List (List Char)) :
    sep.intercalate (x :: xs) = x ++ xs.flatMap (sep ++ ·) := by
  induction xs generalizing x with
  | nil => simp
  | cons y ys ih => rw [List.intercalate_cons_cons, ih, List.flatMap_cons, List.append_assoc,
      List.append_assoc]

section
variable {s : Char} {rest : List Char} {xs ys : List (List Char)}

theorem opensWith_flatMap (xs : List (List Char)) : OpensWith s (xs.flatMap (s :: rest ++ ·)) := by
  cases xs <;> simp [OpensWith]

theorem flatMap_separator_injective (hx : ∀ x ∈ xs, s ∉ x) (hy : ∀ y ∈ ys, s ∉ y)
    (h : xs.flatMap (s :: rest ++ ·) = ys.flatMap (s :: rest ++ ·)) : xs = ys := by
  induction xs generalizing ys with
  | nil =>
    cases ys with
    | nil => rfl
    | cons y ys => simp at h
  | cons x xs ih =>
    cases ys with
    | nil => simp at h
    | cons y ys =>
      rw [List.flatMap_cons, List.flatMap_cons, List.append_assoc, List.append_assoc] at h
      obtain ⟨rfl, htail⟩ := append_inj_of_opensWith (hx x List.mem_cons_self)
        (hy y List.mem_cons_self) (opensWith_flatMap xs) (opensWith_flatMap ys)
        (List.append_cancel_left h)
      rw [ih (fun z hz => hx z (.tail _ hz)) (fun z hz => hy z (.tail _ hz)) htail]

/-- **Parts that are not empty and have no separator are read back from their join.** -/
theorem intercalate_injective (hx : ∀ x ∈ xs, x ≠ [] ∧ s ∉ x) (hy : ∀ y ∈ ys, y ≠ [] ∧ s ∉ y)
    (h : (s :: rest).intercalate xs = (s :: rest).intercalate ys) : xs = ys := by
  cases xs with
  | nil =>
    cases ys with
    | nil => rfl
    | cons y ys =>
      rw [List.intercalate_nil, intercalate_cons, eq_comm, List.append_eq_nil_iff] at h
      exact absurd h.1 (hy y List.mem_cons_self).1
  | cons x xs =>
    cases ys with
    | nil =>
      rw [List.intercalate_nil, intercalate_cons, List.append_eq_nil_iff] at h
      exact absurd h.1 (hx x List.mem_cons_self).1
    | cons y ys =>
      rw [intercalate_cons, intercalate_cons] at h
      obtain ⟨rfl, htail⟩ := append_inj_of_opensWith (hx x List.mem_cons_self).2
        (hy y List.mem_cons_self).2 (opensWith_flatMap xs) (opensWith_flatMap ys) h
      rw [flatMap_separator_injective (fun z hz => (hx z (.tail _ hz)).2)
        (fun z hz => (hy z (.tail _ hz)).2) htail]

end

theorem replaceFirst_of_notMem {c : Char} (text : List Char) {cs : List Char} (h : c ∉ cs) :
    replaceFirst c text cs = cs := by
  induction cs with
  | nil => rfl
  | cons d cs ih =>
    obtain ⟨hd, hcs⟩ := not_or.1 (mt List.mem_cons.2 h)
    rw [replaceFirst, if_neg (by simpa using Ne.symm hd), ih hcs]

theorem replaceFirst_append {c : Char} (text : List Char) {cs : List Char} (rest : List Char)
    (h : c ∉ cs) : replaceFirst c text (cs ++ c :: rest) = cs ++ (text ++ rest) := by
  induction cs with
  | nil => simp [replaceFirst]
  | cons d cs ih =>
    obtain ⟨hd, hcs⟩ := not_or.1 (mt List.mem_cons.2 h)
    rw [List.cons_append, replaceFirst, if_neg (by simpa using Ne.symm hd), ih hcs,
      List.cons_append]

end Text

theorem forall₂_of_map_eq {α β : Type} {R : α → α → Prop} {f : α → β} {l l' : List α}
    (hR : ∀ a ∈ l, ∀ b ∈ l', f a = f b → R a b) (h : l.map f = l'.map f) :
    List.Forall₂ R l l' := by
  rw [← List.forall₂_eq_eq_eq, List.forall₂_map_left_iff, List.forall₂_map_right_iff,
    List.forall₂_iff_zip] at h
  refine List.forall₂_iff_zip.2 ⟨h.1, fun {a b} hab => ?_⟩
  obtain ⟨ha, hb⟩ := List.of_mem_zip hab
  exact hR a ha b hb (h.2 hab)

namespace PackageSet

variable {c : Char} {cs : List Char}

/-! ## Percent encoding -/

theorem toNat_lt_of_isPlain (h : isPlain c = true) : c.toNat < 128 := by
  by_contra hge
  have hne (d : Char) (hd : d.toNat < 128) : c ≠ d := fun he => hge (he ▸ hd)
  have hgt (d : Char) (hd : d.toNat < 128) : ¬ c.val ≤ d.val := fun hle =>
    hge (Nat.lt_of_le_of_lt (UInt32.le_iff_toNat_le.1 hle) hd)
  have hupper : c.isUpper = false := decide_eq_false fun h => hgt 'Z' (by decide) h.2
  have hlower : c.isLower = false :=
    Bool.and_eq_false_iff.2 (.inr (decide_eq_false (hgt 'z' (by decide))))
  have hdigit : c.isDigit = false :=
    Bool.and_eq_false_iff.2 (.inr (decide_eq_false (hgt '9' (by decide))))
  have halpha : c.isAlpha = false := Bool.or_eq_false_iff.2 ⟨hupper, hlower⟩
  simp [isPlain, Char.isAlphanum, halpha, hdigit, hne] at h

theorem toNat_ofNat_byte (b : UInt8) : (Char.ofNat b.toNat).toNat = b.toNat := by
  have : ∀ n < 256, (Char.ofNat n).toNat = n := by decide +kernel
  exact this _ b.toNat_lt

theorem upperHexDigit_inj {m n : Nat} (hm : m < 16) (hn : n < 16)
    (h : upperHexDigit m = upperHexDigit n) : m = n := by
  have : ∀ m < 16, ∀ n < 16, upperHexDigit m = upperHexDigit n → m = n := by decide
  exact this m hm n hn h

theorem isPlain_upperHexDigit {n : Nat} (hn : n < 16) : isPlain (upperHexDigit n) = true := by
  have : ∀ n < 16, isPlain (upperHexDigit n) = true := by decide
  exact this n hn

/-- A byte as it stands in a component. -/
def byteText (b : UInt8) : List Char :=
  if isPlain (Char.ofNat b.toNat) then [Char.ofNat b.toNat] else encodeByte b

theorem encodeByte_injective {b b' : UInt8} (h : encodeByte b = encodeByte b') : b = b' := by
  have hb : b.toNat < 256 := b.toNat_lt
  have hb' : b'.toNat < 256 := b'.toNat_lt
  simp only [encodeByte, List.cons.injEq, true_and, and_true] at h
  have hhigh := upperHexDigit_inj (by omega) (by omega) h.1
  have hlow := upperHexDigit_inj (by omega) (by omega) h.2
  exact UInt8.toNat_inj.1 (by omega)

theorem encodeChar_eq (c : Char) : encodeChar c = (String.utf8EncodeChar c).flatMap byteText := by
  by_cases hsmall : c.toNat < 128
  · have hone : String.utf8EncodeChar c = [UInt8.ofNat c.toNat] :=
      if_pos (Nat.le_of_lt_succ hsmall)
    have hback : Char.ofNat (UInt8.ofNat c.toNat).toNat = c := by
      rw [UInt8.toNat_ofNat', Nat.mod_eq_of_lt (by omega), Char.ofNat_toNat]
    rw [encodeChar, hone, List.flatMap_singleton, List.flatMap_singleton, byteText, hback]
  · have hlarge : ∀ b ∈ String.utf8EncodeChar c, 128 ≤ b.toNat := by
      have hval : ¬ c.val.toNat ≤ 127 := by
        intro h
        exact hsmall (Nat.lt_succ_of_le h)
      fun_cases String.utf8EncodeChar c with
      | case1 => contradiction
      | _ =>
        simp only [List.forall_mem_cons, List.not_mem_nil, false_imp_iff, implies_true, and_true,
          UInt8.toNat_ofNat']
        omega
    have hbytes : ∀ b ∈ String.utf8EncodeChar c, encodeByte b = byteText b := by
      intro b hb
      rw [byteText, if_neg]
      intro hplain
      have := toNat_lt_of_isPlain hplain
      rw [toNat_ofNat_byte] at this
      exact absurd (hlarge b hb) (by omega)
    rw [encodeChar, if_neg fun h => hsmall (toNat_lt_of_isPlain h)]
    exact List.flatMap_congr hbytes

theorem encodeComponent_eq (cs : List Char) :
    encodeComponent cs = (cs.flatMap String.utf8EncodeChar).flatMap byteText := by
  rw [encodeComponent, List.flatMap_assoc]
  exact List.flatMap_congr fun c _ => encodeChar_eq c

theorem utf8_injective {ds : List Char}
    (h : cs.flatMap String.utf8EncodeChar = ds.flatMap String.utf8EncodeChar) : cs = ds := by
  have hbytes : cs.utf8Encode = ds.utf8Encode := by rw [List.utf8Encode, List.utf8Encode, h]
  rw [← String.toByteArray_ofList, ← String.toByteArray_ofList, String.toByteArray_inj] at hbytes
  exact String.ofList_inj.1 hbytes

/-- No byte's text is the beginning of another one's. -/
theorem byteText_append_inj {b b' : UInt8} {ds : List Char}
    (h : byteText b ++ cs = byteText b' ++ ds) : b = b' ∧ cs = ds := by
  by_cases hb : isPlain (Char.ofNat b.toNat) <;> by_cases hb' : isPlain (Char.ofNat b'.toNat) <;>
    simp only [byteText, hb, hb', ↓reduceIte, Bool.false_eq_true] at h
  · obtain ⟨hchar, hrest⟩ := List.cons.inj h
    refine ⟨UInt8.toNat_inj.1 ?_, hrest⟩
    rw [← toNat_ofNat_byte b, hchar, toNat_ofNat_byte]
  · rw [(List.cons.inj h).1] at hb
    exact absurd hb (by decide)
  · rw [← (List.cons.inj h).1] at hb'
    exact absurd hb' (by decide)
  · obtain ⟨hbyte, hrest⟩ := List.append_inj h rfl
    exact ⟨encodeByte_injective hbyte, hrest⟩

theorem flatMap_byteText_injective {bs bs' : List UInt8}
    (h : bs.flatMap byteText = bs'.flatMap byteText) : bs = bs' := by
  have hne (b : UInt8) : byteText b ≠ [] := by
    rw [byteText]
    split <;> simp [encodeByte]
  induction bs generalizing bs' with
  | nil =>
    cases bs' with
    | nil => rfl
    | cons b' bs' => exact absurd (List.append_eq_nil_iff.1 h.symm).1 (hne b')
  | cons b bs ih =>
    cases bs' with
    | nil => exact absurd (List.append_eq_nil_iff.1 h).1 (hne b)
    | cons b' bs' =>
      obtain ⟨rfl, hrest⟩ := byteText_append_inj h
      rw [ih hrest]

/-- **A component is read back from its encoding.** -/
theorem encodeComponent_injective {cs ds : List Char}
    (h : encodeComponent cs = encodeComponent ds) : cs = ds := by
  rw [encodeComponent_eq, encodeComponent_eq] at h
  exact utf8_injective (flatMap_byteText_injective h)

theorem isPlain_of_mem_encodeComponent (h : c ∈ encodeComponent cs) :
    isPlain c = true ∨ c = '%' := by
  rw [encodeComponent_eq] at h
  obtain ⟨b, -, hb⟩ := List.mem_flatMap.1 h
  have hlt : b.toNat < 256 := b.toNat_lt
  rw [byteText] at hb
  split at hb
  · rw [List.mem_singleton.1 hb]
    exact .inl ‹_›
  · simp only [encodeByte, List.mem_cons, List.not_mem_nil, or_false] at hb
    rcases hb with rfl | rfl | rfl
    · exact .inr rfl
    · exact .inl (isPlain_upperHexDigit (by omega))
    · exact .inl (isPlain_upperHexDigit (by omega))

theorem encodeComponent_of_isPlain (h : ∀ c ∈ cs, isPlain c = true) : encodeComponent cs = cs := by
  induction cs with
  | nil => rfl
  | cons c cs ih =>
    have hc : encodeChar c = [c] := if_pos (h c List.mem_cons_self)
    rw [encodeComponent, List.flatMap_cons, hc, ← encodeComponent,
      ih fun d hd => h d (.tail _ hd), List.singleton_append]

/-! ## The builder's address -/

/-- A name that is not empty, in which an at sign can only come first. -/
def IsAddressable (name : String) : Prop := name.toList ≠ [] ∧ '@' ∉ name.toList.tail

instance (name : String) : Decidable (IsAddressable name) :=
  inferInstanceAs (Decidable (_ ∧ _))

theorem queryPair_injective {n n' v v' : String} (hn : IsAddressable n) (hn' : IsAddressable n')
    (h : queryPair n v = queryPair n' v') : n = n' ∧ v = v' := by
  have hpair := encodeComponent_injective h
  obtain ⟨hne, hat⟩ := hn
  obtain ⟨hne', hat'⟩ := hn'
  rw [← List.cons_head_tail hne, ← List.cons_head_tail hne', List.cons_append, List.cons_append,
    List.cons.injEq] at hpair
  obtain ⟨hhead, hrest⟩ := hpair
  obtain ⟨htail, hversion⟩ := Text.append_inj_of_opensWith hat hat' (by simp [Text.OpensWith])
    (by simp [Text.OpensWith]) hrest
  constructor
  · rw [← String.toList_inj, ← List.cons_head_tail hne, ← List.cons_head_tail hne', hhead, htail]
  · exact String.toList_inj.1 (List.cons.inj hversion).2

theorem queryPair_part (name version : String) :
    queryPair name version ≠ [] ∧ '+' ∉ queryPair name version := by
  constructor
  · intro h
    have := @encodeComponent_injective _ [] h
    simp at this
  · intro h
    rcases isPlain_of_mem_encodeComponent h with h | h <;> exact absurd h (by decide)

/-- **The builder's address tells the packages.** -/
theorem entries_eq_of_queryAddress_eq {d e : PackageSet} (hd : ∀ x ∈ d.entries, IsAddressable x.1)
    (he : ∀ x ∈ e.entries, IsAddressable x.1) (h : d.queryAddress = e.queryAddress) :
    d.entries = e.entries := by
  have hpart (d : PackageSet) :
      ∀ p ∈ d.entries.map fun x => queryPair x.1 x.2, p ≠ [] ∧ '+' ∉ p := by
    intro p hp
    obtain ⟨x, -, rfl⟩ := List.mem_map.1 hp
    exact queryPair_part x.1 x.2
  have hpairs := Text.intercalate_injective (hpart d) (hpart e) (String.ofList_inj.1 h)
  rw [← List.forall₂_eq_eq_eq]
  refine forall₂_of_map_eq (fun x hx y hy hxy => ?_) hpairs
  obtain ⟨hname, hversion⟩ := queryPair_injective (hd x hx) (he y hy) hxy
  exact Prod.ext hname hversion

/-- A set has one address for the builder, whatever list it was built from, and lists that denote
different maps have different ones. The store's address depends on the map alone, too. -/
theorem queryAddress_ofList_eq_iff (l l' : List (String × String))
    (hl : ∀ x ∈ l, IsAddressable x.1) (hl' : ∀ x ∈ l', IsAddressable x.1) :
    (queryAddress (.ofList l) = queryAddress (.ofList l') ↔
      ∀ name, Dictionary.lastValue? l name = Dictionary.lastValue? l' name) ∧
    ((∀ name, Dictionary.lastValue? l name = Dictionary.lastValue? l' name) →
      ∀ schema, storeAddress (.ofList l) schema = storeAddress (.ofList l') schema) := by
  have hnames {l : List (String × String)} (hl : ∀ x ∈ l, IsAddressable x.1) :
      ∀ x ∈ (Dictionary.ofList l).entries, IsAddressable x.1 := fun x hx =>
    hl x (Dictionary.mem_of_mem_ofList hx)
  refine ⟨⟨fun h => ?_, fun h => ?_⟩, fun h schema => ?_⟩
  · exact Dictionary.ofList_eq_iff.1
      (Dictionary.ext_entries (entries_eq_of_queryAddress_eq (hnames hl) (hnames hl') h))
  · rw [Dictionary.ofList_eq_iff.2 h]
  · rw [Dictionary.ofList_eq_iff.2 h]

/-- Packages in another order, one of them given twice, with versions of any form. -/
theorem queryAddress_ofList_eq_iff_repeated :
    (∀ x ∈ [("b", "1.0.0"), ("@s/a", "x@+%"), ("b", "é")], IsAddressable x.1) ∧
      (∀ x ∈ [("b", "é"), ("@s/a", "x@+%")], IsAddressable x.1) ∧
      queryAddress (.ofList [("b", "1.0.0"), ("@s/a", "x@+%"), ("b", "é")]) =
        queryAddress (.ofList [("b", "é"), ("@s/a", "x@+%")]) := by
  have h : ∀ x ∈ [("b", "1.0.0"), ("@s/a", "x@+%"), ("b", "é")], IsAddressable x.1 := by decide
  have h' : ∀ x ∈ [("b", "é"), ("@s/a", "x@+%")], IsAddressable x.1 := by decide
  refine ⟨h, h', (queryAddress_ofList_eq_iff _ _ h h').1.2 fun name => ?_⟩
  simp only [Dictionary.lastValue?, List.reverse_cons, List.reverse_nil, List.nil_append,
    List.cons_append, List.lookup_cons, List.lookup_nil]
  cases hb : name == "b" <;> cases ha : name == "@s/a" <;> simp_all

/-! ## The store's address -/

/-- A character of a package's name. -/
def isNameChar (c : Char) : Bool := c.isLower || c.isDigit || c == '-' || c == '.' || c == '_'

/-- A package's name without scope, or a scope. -/
def isNamePart (cs : List Char) : Bool := !cs.isEmpty && cs.all isNameChar

/-- The name of a package, maybe in a scope: `name` or `@scope/name`. -/
inductive IsPackageName : List Char → Prop
  | bare {part : List Char} (h : isNamePart part = true) : IsPackageName part
  | inScope {scope part : List Char} (hscope : isNamePart scope = true)
      (hpart : isNamePart part = true) : IsPackageName ('@' :: scope ++ '/' :: part)

/-- All packages have names and versions as they should be. -/
def IsLegal (d : PackageSet) : Prop :=
  ∀ x ∈ d.entries, IsPackageName x.1.toList ∧ (Version.parse? x.2).isSome = true

theorem isPlain_of_isNamePart (h : isNamePart cs = true) : ∀ c ∈ cs, isPlain c = true := by
  intro c hc
  have hc' := List.all_eq_true.1 (Bool.and_eq_true_iff.1 h).2 c hc
  simp only [isNameChar, Bool.or_eq_true, beq_iff_eq] at hc'
  rcases hc' with (((hlower | hdigit) | rfl) | rfl) | rfl
  · have halpha : c.isAlpha = true := Bool.or_eq_true_iff.2 (.inr hlower)
    simp [isPlain, Char.isAlphanum, halpha]
  · simp [isPlain, Char.isAlphanum, hdigit]
  all_goals decide

theorem notMem_of_isNamePart (h : isNamePart cs = true) (hc : isPlain c = false) :
    c ∉ cs := fun hmem =>
  Bool.false_ne_true (hc.symm.trans (isPlain_of_isNamePart h c hmem))

theorem flatName_bare {part : List Char} (h : isNamePart part = true) : flatName part = part := by
  rw [flatName, Text.replaceFirst_of_notMem _ (notMem_of_isNamePart h (by decide)),
    Text.replaceFirst_of_notMem _ (notMem_of_isNamePart h (by decide))]

theorem flatName_inScope {scope part : List Char} (h : isNamePart scope = true) :
    flatName ('@' :: scope ++ '/' :: part) = scope ++ '-' :: part := by
  have hslash : '/' ∉ '@' :: scope := by
    simpa using notMem_of_isNamePart h (by decide : isPlain '/' = false)
  rw [flatName, Text.replaceFirst_append _ _ hslash, List.cons_append]
  exact @Text.replaceFirst_append '@' [] [] _ (by simp)

theorem isPlain_flatName (h : IsPackageName cs) : ∀ c ∈ flatName cs, isPlain c = true := by
  cases h with
  | bare h =>
    rw [flatName_bare h]
    exact isPlain_of_isNamePart h
  | inScope hscope hpart =>
    rw [flatName_inScope hscope]
    exact List.forall_mem_append.2 ⟨isPlain_of_isNamePart hscope,
      List.forall_mem_cons.2 ⟨by decide, isPlain_of_isNamePart hpart⟩⟩

end PackageSet

/-! ### Characters of versions -/

namespace Version

variable {cs rest : List Char} {ids : List String}

/-- A character of a version. -/
def isVersionChar (c : Char) : Bool := isIdentifierChar c || c == '.' || c == '+'

/-- Nothing but characters of versions. -/
def HasVersionChars (cs : List Char) : Prop := ∀ c ∈ cs, isVersionChar c = true

theorem hasVersionChars_of_span {p : Char → Bool} (hp : ∀ c, p c = true → isVersionChar c = true)
    (h : HasVersionChars (cs.span p).2) : HasVersionChars cs := by
  rw [List.span_eq_takeWhile_dropWhile] at h
  rw [← @List.takeWhile_append_dropWhile _ p cs]
  exact List.forall_mem_append.2 ⟨fun c hc => hp c (List.mem_takeWhile_imp hc), h⟩

theorem readNumber_chars {n : Nat} (h : readNumber cs = some (n, rest))
    (hrest : HasVersionChars rest) : HasVersionChars cs := by
  simp only [readNumber] at h
  split at h
  · cases h
  · obtain ⟨-, rfl⟩ := Prod.mk.inj (Option.some.inj h)
    refine hasVersionChars_of_span (fun c hc => ?_) hrest
    simp [isVersionChar, isIdentifierChar, Char.isAlphanum, hc]

theorem readIdentifiers_chars {strict : Bool} (h : readIdentifiers strict cs = some (ids, rest))
    (hrest : HasVersionChars rest) : HasVersionChars cs := by
  simp only [readIdentifiers] at h
  split at h
  · cases h
  · obtain ⟨-, rfl⟩ := Prod.mk.inj (Option.some.inj h)
    refine hasVersionChars_of_span (fun c hc => ?_) hrest
    rw [isVersionChar, hc, Bool.true_or]

theorem readPre_chars (h : readPre cs = some (ids, rest)) (hrest : HasVersionChars rest) :
    HasVersionChars cs := by
  unfold readPre at h
  split at h
  · exact List.forall_mem_cons.2 ⟨by decide, readIdentifiers_chars h hrest⟩
  · obtain ⟨-, rfl⟩ := Prod.mk.inj (Option.some.inj h)
    exact hrest

theorem readBuild_chars (h : readBuild cs = some (ids, rest)) (hrest : HasVersionChars rest) :
    HasVersionChars cs := by
  unfold readBuild at h
  split at h
  · exact List.forall_mem_cons.2 ⟨by decide, readIdentifiers_chars h hrest⟩
  · obtain ⟨-, rfl⟩ := Prod.mk.inj (Option.some.inj h)
    exact hrest

/-- The parts of a version: three numbers with dots between them, a pre-release and a build. -/
theorem ofChars?_eq_some {v : Version} (h : ofChars? cs = some v) :
    ∃ minor patch pre build, readNumber cs = some (v.major, '.' :: minor) ∧
      readNumber minor = some (v.minor, '.' :: patch) ∧ readNumber patch = some (v.patch, pre) ∧
      readPre pre = some (v.pre, build) ∧ readBuild build = some (v.build, []) := by
  have hdot {xs ys : List Char} (hxs : readDot xs = some ys) : xs = '.' :: ys := by
    unfold readDot at hxs
    split at hxs
    · rw [Option.some.inj hxs]
    · cases hxs
  simp only [ofChars?, Option.bind_eq_bind, Option.bind_eq_some_iff] at h
  obtain ⟨⟨major, r1⟩, h1, r2, h2, ⟨minor, r3⟩, h3, r4, h4, ⟨patch, r5⟩, h5, ⟨pre, r6⟩, h6,
    ⟨build, r7⟩, h7, hend⟩ := h
  split at hend
  · rename_i hnil
    obtain rfl := Option.some.inj hend
    obtain rfl : r7 = [] := List.isEmpty_iff.1 hnil
    obtain rfl := hdot h2
    obtain rfl := hdot h4
    exact ⟨r2, r4, r5, r6, h1, h3, h5, h6, h7⟩
  · cases hend

theorem hasVersionChars_of_parse? {text : String} (h : (parse? text).isSome = true) :
    HasVersionChars text.toList := by
  obtain ⟨v, hv⟩ := Option.isSome_iff_exists.1 h
  obtain ⟨minor, patch, pre, build, hmajor, hminor, hpatch, hpre, hbuild⟩ := ofChars?_eq_some hv
  have hdot {rest : List Char} (hrest : HasVersionChars rest) : HasVersionChars ('.' :: rest) :=
    List.forall_mem_cons.2 ⟨by decide, hrest⟩
  exact readNumber_chars hmajor (hdot (readNumber_chars hminor (hdot (readNumber_chars hpatch
    (readPre_chars hpre (readBuild_chars hbuild (List.forall_mem_nil _)))))))

theorem notMem_of_parse? {text : String} (h : (parse? text).isSome = true) {c : Char}
    (hc : isVersionChar c = false) : c ∉ text.toList := fun hmem =>
  Bool.false_ne_true (hc.symm.trans (hasVersionChars_of_parse? h c hmem))

end Version

namespace PackageSet

/-- The packages have the same version, and names that are the same but for their scopes' signs. -/
def SameFlat (x y : String × String) : Prop :=
  flatName x.1.toList = flatName y.1.toList ∧ x.2 = y.2

theorem storePair_part {x : String × String} (hname : IsPackageName x.1.toList)
    (hversion : (Version.parse? x.2).isSome = true) :
    storePair x.1 x.2 ≠ [] ∧ '%' ∉ storePair x.1 x.2 := by
  have hplain := isPlain_flatName hname
  rw [storePair, encodeComponent_of_isPlain hplain]
  refine ⟨by simp, fun hmem => ?_⟩
  rcases List.mem_append.1 hmem with h | h
  · exact absurd (hplain _ h) (by decide)
  · rcases List.mem_cons.1 h with h | h
    · exact absurd h (by decide)
    · exact Version.notMem_of_parse? hversion (by decide) h

theorem storePair_injective {x y : String × String} (hx : IsPackageName x.1.toList)
    (hy : IsPackageName y.1.toList) (h : storePair x.1 x.2 = storePair y.1 y.2) : SameFlat x y := by
  have hat {cs : List Char} (hcs : IsPackageName cs) : '@' ∉ flatName cs := fun hmem =>
    absurd (isPlain_flatName hcs _ hmem) (by decide)
  rw [storePair, storePair, encodeComponent_of_isPlain (isPlain_flatName hx),
    encodeComponent_of_isPlain (isPlain_flatName hy)] at h
  obtain ⟨hname, hversion⟩ := Text.append_inj_of_opensWith (hat hx) (hat hy)
    (by simp [Text.OpensWith]) (by simp [Text.OpensWith]) h
  exact ⟨hname, String.toList_inj.1 (List.cons.inj hversion).2⟩

theorem storeAddress_congr {d e : PackageSet} (h : List.Forall₂ SameFlat d.entries e.entries)
    (schema : Nat) : d.storeAddress schema = e.storeAddress schema := by
  have hpairs : (d.entries.map fun x => storePair x.1 x.2) =
      e.entries.map fun x => storePair x.1 x.2 := by
    rw [← List.forall₂_eq_eq_eq, List.forall₂_map_left_iff, List.forall₂_map_right_iff]
    refine h.imp fun x y hxy => ?_
    rw [storePair, storePair, hxy.1, hxy.2]
  simp only [storeAddress, hpairs]

theorem sameFlat_of_storeAddress_eq {d e : PackageSet} (hd : d.IsLegal) (he : e.IsLegal)
    {schema : Nat} (h : d.storeAddress schema = e.storeAddress schema) :
    List.Forall₂ SameFlat d.entries e.entries := by
  have hpart {d : PackageSet} (hd : d.IsLegal) :
      ∀ p ∈ d.entries.map fun x => storePair x.1 x.2, p ≠ [] ∧ '%' ∉ p := by
    intro p hp
    obtain ⟨x, hx, rfl⟩ := List.mem_map.1 hp
    exact storePair_part (hd x hx).1 (hd x hx).2
  have hjoin := (String.append_right_inj _).1 ((String.append_left_inj _).1 h)
  have hpairs := Text.intercalate_injective (hpart hd) (hpart he) (String.ofList_inj.1 hjoin)
  exact forall₂_of_map_eq (fun x hx y hy => storePair_injective (hd x hx).1 (he y hy).1) hpairs

/-- Names that differ are flattened to one text only if one of them has a scope. -/
theorem IsPackageName.scope_of_flatName_eq {cs ds : List Char} (hc : IsPackageName cs)
    (hd : IsPackageName ds) (h : flatName cs = flatName ds) (hne : cs ≠ ds) :
    cs.head? = some '@' ∨ ds.head? = some '@' := by
  cases hc with
  | bare hc =>
    cases hd with
    | bare hd => exact absurd (by rwa [flatName_bare hc, flatName_bare hd] at h) hne
    | inScope => exact .inr rfl
  | inScope => exact .inl rfl

/-- Sets that agree but for the signs of scopes are equal, or two of their names show it. -/
theorem eq_or_flattened {l l' : List (String × String)} (h : List.Forall₂ SameFlat l l') :
    l = l' ∨ ∃ x ∈ l, ∃ y ∈ l', x.1 ≠ y.1 ∧ SameFlat x y := by
  induction h with
  | nil => exact .inl rfl
  | @cons x y l l' hxy _ ih =>
    by_cases hname : x.1 = y.1
    · obtain rfl : x = y := Prod.ext hname hxy.2
      rcases ih with rfl | ⟨z, hz, w, hw, hzw⟩
      · exact .inl rfl
      · exact .inr ⟨z, .tail _ hz, w, .tail _ hw, hzw⟩
    · exact .inr ⟨x, .head _, y, .head _, hname, hxy⟩

/-- Two names that are one once the signs of their scopes are gone. -/
structure FlattenAlike (m n : String) : Prop where
  ne : m ≠ n
  flatName_eq : flatName m.toList = flatName n.toList
  scope : m.toList.head? = some '@' ∨ n.toList.head? = some '@'

/-- **Sets with one address in the store** have the same versions under the same flattened names.
They are equal unless a name of the one and a different name of the other are flattened alike, and
then one of the two has a scope. -/
theorem storeAddress_eq_iff (d e : PackageSet) (hd : d.IsLegal) (he : e.IsLegal) (schema : Nat) :
    (d.storeAddress schema = e.storeAddress schema ↔
      List.Forall₂ SameFlat d.entries e.entries) ∧
    (d.storeAddress schema = e.storeAddress schema →
      d = e ∨ ∃ m ∈ d.keys, ∃ n ∈ e.keys, FlattenAlike m n) := by
  refine ⟨⟨sameFlat_of_storeAddress_eq hd he, fun h => storeAddress_congr h schema⟩, fun h => ?_⟩
  rcases eq_or_flattened (sameFlat_of_storeAddress_eq hd he h) with h | ⟨x, hx, y, hy, hne, hxy⟩
  · exact .inl (Dictionary.ext_entries h)
  · have hchars : x.1.toList ≠ y.1.toList := fun h => hne (String.toList_inj.1 h)
    exact .inr ⟨x.1, List.mem_map_of_mem hx, y.1, List.mem_map_of_mem hy, hne, hxy.1,
      (hd x hx).1.scope_of_flatName_eq (he y hy).1 hxy.1 hchars⟩

theorem isLegal_ofList {l : List (String × String)}
    (h : ∀ x ∈ l, IsPackageName x.1.toList ∧ (Version.parse? x.2).isSome = true) :
    IsLegal (.ofList l) := fun x hx => h x (Dictionary.mem_of_mem_ofList hx)

theorem isPackageName_babelRuntime : IsPackageName "@babel/runtime".toList := by
  have h : "@babel/runtime".toList = '@' :: "babel".toList ++ '/' :: "runtime".toList := by decide
  rw [h]
  exact .inScope (by decide) (by decide)

/-- A package in a scope and the one that bears its flattened name share an address. -/
theorem storeAddress_flattenedName :
    IsLegal (.ofList [("@babel/runtime", "7.22.5")]) ∧
      IsLegal (.ofList [("babel-runtime", "7.22.5")]) ∧
      storeAddress (.ofList [("@babel/runtime", "7.22.5")]) 1 =
        storeAddress (.ofList [("babel-runtime", "7.22.5")]) 1 ∧
      Dictionary.ofList [("@babel/runtime", "7.22.5")] ≠
        Dictionary.ofList [("babel-runtime", "7.22.5")] := by
  refine ⟨
    isLegal_ofList (List.forall_mem_singleton.2 ⟨isPackageName_babelRuntime, by decide +kernel⟩),
    isLegal_ofList (List.forall_mem_singleton.2 ⟨.bare (by decide), by decide +kernel⟩),
    by decide +kernel, by decide +kernel⟩

theorem storeAddress_eq_iff_flattenedName :
    IsLegal (.ofList [("react", "18.2.0-rc.1+b"), ("@babel/runtime", "7.22.5")]) ∧
      IsLegal (.ofList [("babel-runtime", "7.22.5"), ("react", "18.2.0-rc.1+b")]) ∧
      List.Forall₂ SameFlat
        (Dictionary.ofList [("react", "18.2.0-rc.1+b"), ("@babel/runtime", "7.22.5")]).entries
        (Dictionary.ofList [("babel-runtime", "7.22.5"), ("react", "18.2.0-rc.1+b")]).entries := by
  have h : IsLegal (.ofList [("react", "18.2.0-rc.1+b"), ("@babel/runtime", "7.22.5")]) :=
    isLegal_ofList (List.forall_mem_cons.2 ⟨⟨.bare (by decide), by decide +kernel⟩,
      List.forall_mem_singleton.2 ⟨isPackageName_babelRuntime, by decide +kernel⟩⟩)
  have h' : IsLegal (.ofList [("babel-runtime", "7.22.5"), ("react", "18.2.0-rc.1+b")]) :=
    isLegal_ofList (List.forall_mem_cons.2 ⟨⟨.bare (by decide), by decide +kernel⟩,
      List.forall_mem_singleton.2 ⟨.bare (by decide), by decide +kernel⟩⟩)
  exact ⟨h, h', (storeAddress_eq_iff _ _ h h' 1).1.1 (by decide +kernel)⟩

end PackageSet

end ModuleForge
