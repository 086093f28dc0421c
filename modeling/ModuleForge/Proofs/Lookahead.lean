import ModuleForge.Proofs.Lexemes

/-!
# Reading and what follows

A reader takes a part of a text and looks at what follows it, so as not to stop too early. Where it
has stopped, it stops as well if the text goes on with a character that no token goes on with.

- `stops`: the characters that no token goes on with, apart from comments.
- `Agree`: texts that agree as far as a reader looks.
- `stringBody_local`, `regexBody_local`, `numberToken_local`, `identifierBody_local`,
  `punctuator?_local`: each reader takes the same part of texts that agree behind it.
-/

namespace ModuleForge.Token

open Text Cursor

variable {c : Char} {g g' q cs rest : List Char} {pos n pos' : Nat} {p : Char → Bool} {cur : Cursor}

/-! ## Texts that agree -/

/-- Characters that no token goes on with: blanks and some marks. -/
def stopChars : List Char :=
  ';' :: '\x7d' :: '`' :: blankCodes.map Char.ofNat

def stops (c : Char) : Bool :=
  stopChars.contains c

/-- No token goes on with the text. -/
def Stopped (f : List Char) : Prop :=
  ∀ c, f.head? = some c → stops c = true

/-- The texts start alike, or no token goes on with the second. -/
def HeadsAgree (g g' : List Char) : Prop :=
  ∀ c, g'.head? = some c → stops c = true ∨ g.head? = some c

theorem false_of_stops {p : Char → Bool} (hp : stopChars.all (!p ·) = true) {c : Char}
    (h : stops c = true) : p c = false := by
  simpa using List.all_eq_true.1 hp c (List.contains_iff_mem.1 h)

theorem stops_of_test (hp : ∀ c, stops c = true → p c = false) (hc : p c = true) :
    stops c = false := by
  rw [Bool.eq_false_iff]
  intro hstop
  rw [hp c hstop] at hc
  cases hc

/-- What the first text does not start with, the second does not start with either. -/
theorem HeadsAgree.stop (h : HeadsAgree g g') (hp : ∀ c, stops c = true → p c = false)
    (hg : ∀ c, g.head? = some c → p c = false) : ∀ c, g'.head? = some c → p c = false := by
  intro c hc
  rcases h c hc with hs | hs
  · exact hp c hs
  · exact hg c hs

theorem headsAgree_append (hq : q ≠ []) (g g' : List Char) : HeadsAgree (q ++ g) (q ++ g') := by
  intro c hc
  cases q with
  | nil => exact absurd rfl hq
  | cons d q => exact .inr hc

theorem append_ne_self {h : List Char} (hq : q ≠ []) (hle : g.length ≤ h.length) : q ++ h ≠ g := by
  rintro rfl
  have := List.length_pos_iff.2 hq
  simp only [List.length_append] at hle
  omega

theorem exists_cons_of_length_le (h : q ++ g = c :: rest) (hle : g.length ≤ rest.length) :
    ∃ q', q = c :: q' ∧ rest = q' ++ g := by
  cases q with
  | nil =>
    have := congrArg List.length h
    simp only [List.nil_append, List.length_cons] at this
    omega
  | cons d q =>
    obtain ⟨rfl, rfl⟩ := List.cons.inj h
    exact ⟨q, rfl, rfl⟩

theorem isHexDigit_of_stops (h : stops c = true) : isHexDigit c = false :=
  false_of_stops (by decide) h

theorem isIdentifierPart_of_stops {c : Char} (h : stops c = true) :
    isIdentifierPart c = false :=
  false_of_stops (by decide +kernel) h

theorem isAlnum_of_stops {c : Char} (h : stops c = true) : isAlnum c = false :=
  false_of_stops (by decide +kernel) h

/-- A word starts the text, with a letter that is no part of an escape. -/
def OpensWord (f : List Char) : Prop :=
  ∃ c, f.head? = some c ∧ isIdentifierStart c = true ∧ c ≠ 'u'

/-- The texts agree up to a place where no token goes on with the second, or where it has a word
behind what both start with. A point that stands there alone is not the start of a number. -/
def Agree (g g' : List Char) : Prop :=
  ∃ q f f', g = q ++ f ∧ g' = q ++ f' ∧ (Stopped f' ∨ q ≠ [] ∧ OpensWord f') ∧
    (q = ['.'] → ∀ c, f.head? = some c → c.isDigit = false)

theorem Agree.prefix {r : List Char} (h : Agree g g') (hr : r <+: g')
    (hmarks : ∀ c ∈ r, stops c = false ∧ isIdentifierStart c = false) : r <+: g := by
  obtain ⟨q, f, f', rfl, rfl, hf, -⟩ := h
  have hfirst : ∀ c, f'.head? = some c → stops c = true ∨ isIdentifierStart c = true := by
    intro c hc
    rcases hf with hf | ⟨-, d, hd, hstart, -⟩
    · exact .inl (hf c hc)
    · obtain rfl := Option.some.inj (hc.symm.trans hd)
      exact .inr hstart
  clear hf
  induction q generalizing r with
  | nil =>
    cases r with
    | nil => exact List.nil_prefix
    | cons c r =>
      -- The second text would go on with the character.
      obtain ⟨tail, htail⟩ := hr
      have hc := hfirst c (by rw [← List.nil_append f', ← htail]; rfl)
      rw [(hmarks c (by simp)).1, (hmarks c (by simp)).2] at hc
      simp at hc
  | cons d q ih =>
    cases r with
    | nil => exact List.nil_prefix
    | cons c r =>
      obtain ⟨rfl, htail⟩ := List.cons_prefix_cons.1 hr
      exact List.cons_prefix_cons.2 ⟨rfl, ih (List.forall_mem_cons.1 hmarks).2 htail⟩

theorem Agree.heads (h : Agree g g') : HeadsAgree g g' := by
  obtain ⟨q, f, f', rfl, rfl, hf, -⟩ := h
  cases q with
  | nil => exact fun c hc => .inl ((hf.resolve_right fun h => h.1 rfl) c hc)
  | cons d q => exact fun c hc => .inr hc

theorem Agree.heads_append (h : Agree g g') (q : List Char) : HeadsAgree (q ++ g) (q ++ g') := by
  cases q with
  | nil => exact h.heads
  | cons c q => exact headsAgree_append (by simp) g g'

/-- Neither a blank nor a semicolon comes last. -/
def EndsInside (q : List Char) : Prop :=
  ∀ c, q.getLast? = some c → isBlank c = false ∧ c ≠ ';'

theorem stops_of_isBlank (h : isBlank c = true) : stops c = true := by
  have hmem : Char.ofNat c.toNat ∈ stopChars := by
    simp only [stopChars, List.mem_cons, List.mem_map]
    exact .inr (.inr (.inr ⟨_, toNat_mem_blankCodes h, rfl⟩))
  rw [Char.ofNat_toNat] at hmem
  exact List.contains_iff_mem.2 hmem

theorem endsInside_of_forall (h : ∀ c ∈ q, stops c = false) : EndsInside q := by
  intro c hc
  have hstop := h c (List.mem_of_getLast? hc)
  refine ⟨?_, ?_⟩
  · rw [Bool.eq_false_iff]
    intro hblank
    rw [stops_of_isBlank hblank] at hstop
    cases hstop
  · rintro rfl
    cases hstop

theorem EndsInside.append {q' : List Char} (h : EndsInside q') (q : List Char) (hq : q' ≠ []) :
    EndsInside (q ++ q') := by
  intro c hc
  rw [List.getLast?_append, List.getLast?_eq_some_getLast hq, Option.some_or,
    ← List.getLast?_eq_some_getLast hq] at hc
  exact h c hc

/-! ## Escapes -/

theorem hexDigits_local (h : (hexDigits n (q ++ g)).2 = g) (ha : HeadsAgree g g') :
    hexDigits n (q ++ g') = (q, g') := by
  induction q generalizing n with
  | nil =>
    have hg : n ≠ 0 → ∀ c, g.head? = some c → isHexDigit c = false := by
      intro hn c hc
      obtain ⟨tail, rfl⟩ := List.head?_eq_some_iff.1 hc
      obtain ⟨n, rfl⟩ := Nat.exists_eq_succ_of_ne_zero hn
      by_contra hdigit
      rw [Bool.not_eq_false] at hdigit
      simp only [List.nil_append, hexDigits, if_pos hdigit] at h
      have := hexDigits_length n tail
      rw [h, List.length_cons] at this
      omega
    cases n with
    | zero => simp [hexDigits]
    | succ n =>
      cases g' with
      | nil => simp [hexDigits]
      | cons c tail =>
        have hc := ha.stop (fun c => isHexDigit_of_stops) (hg (Nat.succ_ne_zero n)) c rfl
        simp [hexDigits, hc]
  | cons c q ih =>
    cases n with
    | zero => exact absurd h (append_ne_self (by simp) (Nat.le_refl _))
    | succ n =>
      simp only [List.cons_append, hexDigits] at h ⊢
      split at h
      · rename_i hc
        rw [if_pos hc, ih h]
      · exact absurd h (append_ne_self (q := c :: q) (by simp) (Nat.le_refl _))

theorem hexDigits_fst (h : (hexDigits n (q ++ g)).2 = g) : (hexDigits n (q ++ g)).1 = q := by
  have := hexDigits_append n (q ++ g)
  rw [h] at this
  exact List.append_cancel_right this

theorem isHexDigit_hexDigits (n : Nat) (cs : List Char) :
    ∀ c ∈ (hexDigits n cs).1, isHexDigit c = true := by
  fun_induction hexDigits n cs with
  | case1 n c rest hc digits rest' hdigits ih =>
    rw [hdigits] at ih
    exact List.forall_mem_cons.2 ⟨hc, ih⟩
  | _ => simp

theorem unicodeEscape_digits (h : cs.head? ≠ some '\x7b') :
    unicodeEscape ⟨pos, cs⟩ = ⟨charOfHex (hexDigits 4 cs).1,
      ⟨pos + byteLength (hexDigits 4 cs).1, (hexDigits 4 cs).2⟩⟩ := by
  unfold unicodeEscape
  split
  · rename_i rest hrest
    obtain rfl : cs = '\x7b' :: rest := hrest
    exact absurd rfl h
  · rfl

theorem unicodeEscape_brace {digits : List Char} (h : ∀ d ∈ digits, d ≠ '\x7d') (pos : Nat)
    (rest : List Char) :
    unicodeEscape ⟨pos, '\x7b' :: (digits ++ '\x7d' :: rest)⟩ =
      ⟨charOfHex digits, ⟨pos + byteLength ('\x7b' :: (digits ++ ['\x7d'])), rest⟩⟩ := by
  have hspan := @span_append (· != '\x7d') digits ('\x7d' :: rest) (by simpa using h) (by simp)
    (pos + 1)
  simp only [Cursor.span, Cursor.jump, Prod.mk.injEq, Cursor.mk.injEq] at hspan
  have h1 : '\x7b'.utf8Size = 1 := rfl
  have h2 : '\x7d'.utf8Size = 1 := rfl
  simp only [unicodeEscape, hspan.1, hspan.2.2, Cursor.jump, Cursor.next, byteLength_cons,
    byteLength_append, byteLength_nil, h1, h2]
  simp only [Nat.add_zero, Nat.add_assoc]

/-- An escape in braces takes them, or all that is left if it is not closed. -/
theorem unicodeEscape_local_brace (hbrace : (q ++ g).head? = some '\x7b')
    (h : (unicodeEscape ⟨pos, q ++ g⟩).cursor.rest = g) (hend : g = [] → g' = []) :
    unicodeEscape ⟨pos', q ++ g'⟩ =
        ⟨(unicodeEscape ⟨pos, q ++ g⟩).char, ⟨pos' + byteLength q, g'⟩⟩ ∧
      (g ≠ [] → EndsInside q) := by
  cases q with
  | nil =>
    -- At least the brace would be taken.
    obtain ⟨tail, rfl⟩ := List.head?_eq_some_iff.1 hbrace
    exfalso
    have hlt := Cursor.next_length (Cursor.jump ⟨pos + 1, tail⟩ (tail.takeWhile (· != '\x7d'))
      (tail.dropWhile (· != '\x7d')))
    have hdrop := length_dropWhile_le (· != '\x7d') tail
    simp only [unicodeEscape, List.nil_append] at h
    rw [h] at hlt
    simp only [Cursor.jump, List.length_cons] at hlt
    omega
  | cons c q =>
    obtain rfl : c = '\x7b' := Option.some.inj hbrace
    obtain ⟨hsplit, hdigits, hstop⟩ := span_spec (· != '\x7d') ⟨pos + 1, q ++ g⟩
    simp only [Cursor.span, Cursor.jump] at hsplit hdigits hstop
    simp only [List.cons_append, unicodeEscape, Cursor.jump, Cursor.next] at h
    generalize (q ++ g).takeWhile (· != '\x7d') = digits at *
    cases hafter : (q ++ g).dropWhile (· != '\x7d') with
    | nil =>
      -- The escape is not closed: it takes all that is left.
      simp only [hafter] at h hsplit
      obtain rfl : g = [] := h.symm
      obtain rfl := hend rfl
      obtain rfl : q = digits := by simpa using hsplit
      refine ⟨?_, fun hne => absurd rfl hne⟩
      simp only [List.append_nil] at hafter ⊢
      have htake : q.takeWhile (· != '\x7d') = q :=
        List.takeWhile_eq_self_iff.2 (by simpa using hdigits)
      have hsize : '\x7b'.utf8Size = 1 := rfl
      simp only [unicodeEscape, hafter, htake, Cursor.jump, Cursor.next, byteLength_cons, hsize,
        Nat.add_assoc]
    | cons d tail =>
      simp only [hafter] at h hsplit hstop
      obtain rfl : tail = g := h
      obtain rfl : d = '\x7d' := by simpa using hstop d rfl
      have hq : q = digits ++ ['\x7d'] := by
        have : q ++ tail = digits ++ ['\x7d'] ++ tail := by simpa using hsplit
        exact List.append_cancel_right this
      have hd : ∀ d ∈ digits, d ≠ '\x7d' := by simpa using hdigits
      subst hq
      simp only [List.cons_append, List.append_assoc, List.nil_append]
      rw [unicodeEscape_brace hd, unicodeEscape_brace hd]
      refine ⟨rfl, fun _ => @EndsInside.append ['\x7d'] ?_ ('\x7b' :: digits) (by simp)⟩
      intro c hc
      obtain rfl := Option.some.inj hc
      decide

theorem unicodeEscape_local_digits (hbrace : (q ++ g).head? ≠ some '\x7b')
    (h : (unicodeEscape ⟨pos, q ++ g⟩).cursor.rest = g) (ha : HeadsAgree g g') :
    unicodeEscape ⟨pos', q ++ g'⟩ =
        ⟨(unicodeEscape ⟨pos, q ++ g⟩).char, ⟨pos' + byteLength q, g'⟩⟩ ∧
      (g ≠ [] → EndsInside q) := by
  have hbrace' : (q ++ g').head? ≠ some '\x7b' := by
    cases q with
    | nil =>
      intro hhead
      have hstop := ha.stop (fun c => @false_of_stops (· == '\x7b') (by decide) c) (fun c hc => by
        simp only [beq_eq_false_iff_ne]
        rintro rfl
        exact hbrace hc) '\x7b' hhead
      simp at hstop
    | cons c q => exact hbrace
  rw [unicodeEscape_digits hbrace] at h ⊢
  rw [unicodeEscape_digits hbrace', hexDigits_local h ha, hexDigits_fst h]
  refine ⟨rfl, fun _ => endsInside_of_forall fun c hc => ?_⟩
  have hdigit := isHexDigit_hexDigits 4 (q ++ g) c (by rwa [hexDigits_fst h])
  exact stops_of_test (fun _ => isHexDigit_of_stops) hdigit

theorem unicodeEscape_local {pos pos' : Nat} {q g g' : List Char}
    (h : (unicodeEscape ⟨pos, q ++ g⟩).cursor.rest = g) (hend : g = [] → g' = [])
    (ha : HeadsAgree g g') :
    unicodeEscape ⟨pos', q ++ g'⟩ =
        ⟨(unicodeEscape ⟨pos, q ++ g⟩).char, ⟨pos' + byteLength q, g'⟩⟩ ∧
      (g ≠ [] → EndsInside q) := by
  by_cases hbrace : (q ++ g).head? = some '\x7b'
  · exact unicodeEscape_local_brace hbrace h hend
  · exact unicodeEscape_local_digits hbrace h ha

/-! ## String literals -/

theorem stringEscape_char (hu : c ≠ 'u') (hx : c ≠ 'x') (pos : Nat) (rest : List Char) :
    stringEscape ⟨pos, c :: rest⟩ =
      if c = '\r' ∧ rest.head? = some '\n' then (none, ⟨pos + 2, rest.tail⟩)
      else (if isLineBreak c then none else some (unescape c), ⟨pos + c.utf8Size, rest⟩) := by
  simp only [stringEscape]
  split <;> rename_i heq
  · cases heq
  · exact absurd (List.cons.inj heq).1 hu
  · exact absurd (List.cons.inj heq).1 hx
  · obtain ⟨rfl, rfl⟩ := List.cons.inj heq
    rfl
  · rename_i hfeed
    obtain ⟨rfl, rfl⟩ := List.cons.inj heq
    have hneg : ¬ (c = '\r' ∧ rest.head? = some '\n') := by
      rintro ⟨rfl, hhead⟩
      obtain ⟨tail, rfl⟩ := List.head?_eq_some_iff.1 hhead
      exact hfeed tail rfl rfl
    rw [if_neg hneg]

theorem stringEscape_takes (pos : Nat) (c : Char) (rest : List Char) :
    (stringEscape ⟨pos, c :: rest⟩).2.rest.length ≤ rest.length := by
  by_cases hu : c = 'u'
  · subst hu
    exact unicodeEscape_length ⟨pos + 1, rest⟩
  by_cases hx : c = 'x'
  · subst hx
    exact hexEscape_length ⟨pos + 1, rest⟩
  rw [stringEscape_char hu hx]
  split <;> simp

/-- An escape that leaves a part of the text is read alike before another text. -/
theorem stringEscape_local {pos pos' : Nat} {taken q g g' : List Char}
    (h : (stringEscape ⟨pos, taken ++ (q ++ g)⟩).2.rest = q ++ g) (hne : q ≠ []) :
    stringEscape ⟨pos', taken ++ (q ++ g')⟩ =
      ((stringEscape ⟨pos, taken ++ (q ++ g)⟩).1, ⟨pos' + byteLength taken, q ++ g'⟩) := by
  have ha := headsAgree_append hne g g'
  cases taken with
  | nil =>
    exfalso
    cases q with
    | nil => exact hne rfl
    | cons c q =>
      have hlt := stringEscape_takes pos c (q ++ g)
      rw [show stringEscape ⟨pos, c :: (q ++ g)⟩ = stringEscape ⟨pos, [] ++ (c :: q ++ g)⟩ from rfl,
        h] at hlt
      simp only [List.cons_append, List.length_cons, List.length_append] at hlt
      omega
  | cons c taken =>
    simp only [List.cons_append] at h ⊢
    by_cases hu : c = 'u'
    · subst hu
      have hescape : (unicodeEscape ⟨pos + 1, taken ++ (q ++ g)⟩).cursor.rest = q ++ g := h
      have hlocal := (@unicodeEscape_local _ (pos' + 1) _ _ _ hescape (by simp [hne]) ha).1
      simp only [stringEscape, hlocal, byteLength_cons, Nat.add_assoc]
      rfl
    by_cases hx : c = 'x'
    · subst hx
      have hescape : (hexDigits 2 (taken ++ (q ++ g))).2 = q ++ g := h
      simp only [stringEscape, hexEscape, Cursor.jump, hexDigits_local hescape ha,
        hexDigits_fst hescape, byteLength_cons, Nat.add_assoc]
      rfl
    rw [stringEscape_char hu hx] at h ⊢
    rw [stringEscape_char hu hx]
    have hhead : (taken ++ (q ++ g')).head? = (taken ++ (q ++ g)).head? := by
      cases taken with
      | nil =>
        cases q with
        | nil => exact absurd rfl hne
        | cons d q => rfl
      | cons d taken => rfl
    rw [hhead]
    by_cases hfeed : c = '\r' ∧ (taken ++ (q ++ g)).head? = some '\n'
    · simp only [if_pos hfeed] at h ⊢
      obtain ⟨rfl, hfeed⟩ := hfeed
      cases taken with
      | nil =>
        exfalso
        have := congrArg List.length h
        have := List.length_pos_iff.2 hne
        simp at *
        omega
      | cons d taken =>
        obtain rfl : d = '\n' := Option.some.inj hfeed
        obtain rfl : taken = [] := by simpa using h
        rfl
    · simp only [if_neg hfeed] at h ⊢
      obtain rfl : taken = [] := by simpa using h
      simp

theorem stringBody_length {quote : Char} (h : (stringBody quote cur).value?.isSome = true) :
    (stringBody quote cur).cursor.rest.length < cur.rest.length := by
  fun_induction stringBody quote cur with
  | case1 => cases h
  | case2 cur c rest hrest _ => simp [hrest]
  | case3 cur c rest hrest _ _ hlt ih =>
    simp only [StringBody.push, Option.isSome_map] at h ⊢
    exact Nat.lt_trans (ih h) hlt
  | case4 => cases h
  | case5 cur c rest hrest _ _ _ ih =>
    simp only [StringBody.push, Option.isSome_map] at h ⊢
    have := ih h
    simp only [hrest, List.length_cons] at this ⊢
    omega

/-- **A closed literal is read alike before every text.** -/
theorem stringBody_local {quote : Char} (hcur : cur.rest = q ++ g)
    (h : (stringBody quote cur).value?.isSome = true)
    (hrest : (stringBody quote cur).cursor.rest = g) (pos' : Nat) (g' : List Char) :
    stringBody quote ⟨pos', q ++ g'⟩ =
        ⟨(stringBody quote cur).value?, ⟨pos' + byteLength q, g'⟩⟩ ∧
      q.getLast? = some quote := by
  fun_induction stringBody quote cur generalizing q pos' with
  | case1 => cases h
  | case2 cur c rest hc hquote =>
    obtain rfl : rest = g := hrest
    obtain rfl : q = [c] := List.append_cancel_right (hcur.symm.trans hc)
    obtain rfl : c = quote := by simpa using hquote
    exact ⟨by simp [stringBody], rfl⟩
  | case3 cur c rest hc hquote hback hlt ih =>
    simp only [StringBody.push, Option.isSome_map] at h hrest
    have hlen' := stringBody_length h
    obtain ⟨q, rfl, rfl⟩ := exists_cons_of_length_le (hcur.symm.trans hc) (by
      have := stringEscape_length ⟨cur.pos + 1, rest⟩
      rw [hrest] at hlen'
      simp only at this
      omega)
    obtain ⟨taken, htaken, -⟩ := stringEscape_reaches ⟨cur.pos + 1, q ++ g⟩
    obtain ⟨more, hmore, -⟩ := stringBody_reaches quote (stringEscape ⟨cur.pos + 1, q ++ g⟩).2
    rw [hrest] at hmore hlen'
    have hne : more ≠ [] := by
      rintro rfl
      rw [hmore] at hlen'
      simp at hlen'
    have hq : q = taken ++ more := by
      simp only [hmore, ← List.append_assoc] at htaken
      exact List.append_cancel_right htaken
    subst hq
    rw [List.append_assoc] at h hrest hmore ih ⊢
    have hescape := @stringEscape_local _ (pos' + 1) _ _ _ g' hmore hne
    obtain ⟨hbody, hlast⟩ := ih hmore h hrest (pos' + 1 + byteLength taken)
    obtain rfl : c = '\\' := by simpa using hback
    have hsize : pos' + byteLength ('\\' :: (taken ++ more)) =
        pos' + 1 + byteLength taken + byteLength more := by
      have : '\\'.utf8Size = 1 := rfl
      simp only [byteLength_cons, byteLength_append]
      omega
    refine ⟨?_, ?_⟩
    · rw [List.cons_append, List.append_assoc, stringBody]
      simp only [hescape, hbody, hsize, StringBody.push, if_neg hquote, beq_self_eq_true, if_true]
    · rw [← List.cons_append, List.getLast?_append, hlast]
      rfl
  | case4 => cases h
  | case5 cur c rest hc hquote hback hfeed ih =>
    simp only [StringBody.push, Option.isSome_map] at h hrest
    have hlen' := stringBody_length h
    obtain ⟨q, rfl, rfl⟩ := exists_cons_of_length_le (hcur.symm.trans hc) (by
      rw [hrest] at hlen'
      exact Nat.le_of_lt hlen')
    obtain ⟨hbody, hlast⟩ := ih rfl h hrest (pos' + c.utf8Size)
    refine ⟨?_, ?_⟩
    · rw [List.cons_append, stringBody]
      simp only [hbody, StringBody.push, if_neg hquote, if_neg hback, if_neg hfeed, byteLength_cons,
        Nat.add_assoc]
    · rw [List.getLast?_cons, hlast]
      rfl

/-! ## Regular expressions -/

theorem regexBody_length {inClass : Bool} (h : (regexBody inClass pos cs).1 = true) :
    (regexBody inClass pos cs).2.rest.length < cs.length := by
  fun_induction regexBody inClass pos cs with
  | case1 => cases h
  | case2 => cases h
  | case3 inClass pos c rest ih =>
    have := ih h
    simp only [List.length_cons]
    omega
  | case4 => cases h
  | case5 => simp
  | case6 inClass pos c rest _ _ _ _ ih =>
    have := ih h
    simp only [List.length_cons]
    omega

/-- **A closed regular expression is read alike before every text.** -/
theorem regexBody_local {inClass : Bool} {pos : Nat} {cs q g : List Char} (hcs : cs = q ++ g)
    (h : (regexBody inClass pos cs).1 = true) (hrest : (regexBody inClass pos cs).2.rest = g)
    (pos' : Nat) (g' : List Char) :
    (regexBody inClass pos' (q ++ g')).1 = true ∧ (regexBody inClass pos' (q ++ g')).2.rest = g' ∧
      q.getLast? = some '/' := by
  fun_induction regexBody inClass pos cs generalizing q pos' with
  | case1 => cases h
  | case2 => cases h
  | case3 inClass pos c rest ih =>
    have hlen := regexBody_length h
    rw [hrest] at hlen
    obtain ⟨q, rfl, hq⟩ := exists_cons_of_length_le hcs.symm (by simp only [List.length_cons]; omega)
    obtain ⟨q, rfl, rfl⟩ := exists_cons_of_length_le hq.symm (by omega)
    obtain ⟨hclosed, hbody, hlast⟩ := ih rfl h hrest (pos' + 1 + c.utf8Size)
    refine ⟨hclosed, hbody, ?_⟩
    rw [List.getLast?_cons, List.getLast?_cons, hlast]
    rfl
  | case4 => cases h
  | case5 inClass pos c rest hend hback hbreak hslash =>
    obtain rfl : rest = g := hrest
    obtain rfl : q = [c] := List.append_cancel_right hcs.symm
    have hc : c ≠ '\\' := by
      rintro rfl
      cases hslash
    rw [List.singleton_append, regexBody.eq_4 _ _ _ _ (fun h => absurd h hc)
      (fun _ _ h => absurd h hc), if_neg hbreak, if_pos hslash]
    obtain ⟨rfl, -⟩ : c = '/' ∧ _ := by simpa using hslash
    exact ⟨rfl, rfl, rfl⟩
  | case6 inClass pos c rest hend hback hbreak hslash ih =>
    have hlen := regexBody_length h
    rw [hrest] at hlen
    obtain ⟨q, rfl, rfl⟩ := exists_cons_of_length_le hcs.symm (by omega)
    obtain ⟨hclosed, hbody, hlast⟩ := ih rfl h hrest (pos' + c.utf8Size)
    have hc : c ≠ '\\' := by
      intro hc
      cases hq : q ++ g with
      | nil => exact hend hc hq
      | cons d tail => exact hback d tail hc hq
    rw [List.cons_append, regexBody.eq_4 _ _ _ _ (fun h => absurd h hc)
      (fun _ _ h => absurd h hc), if_neg hbreak, if_neg hslash]
    refine ⟨hclosed, hbody, ?_⟩
    rw [List.getLast?_cons, hlast]
    rfl

/-! ## Numbers -/

/-- Whether a number goes on with a character. -/
def goesOnNumber (radix seenDot : Bool) (prev c : Char) : Bool :=
  if c == '.' then !seenDot && !radix
  else if c == '+' || c == '-' then !radix && (prev == 'e' || prev == 'E')
  else c.isAlphanum || c == '_'

theorem numberChars_cons (radix seenDot : Bool) (prev c : Char) (rest : List Char) :
    numberChars radix seenDot prev (c :: rest) =
      if goesOnNumber radix seenDot prev c then
        c :: numberChars radix (seenDot || c == '.') c rest
      else [] :=
  rfl

theorem goesOnNumber_of_stops (h : stops c = true) (radix seenDot : Bool) (prev : Char) :
    goesOnNumber radix seenDot prev c = false := by
  have hplain : (c == '.' || c == '+' || c == '-' || c.isAlphanum || c == '_') = false :=
    @false_of_stops (fun c => c == '.' || c == '+' || c == '-' || c.isAlphanum || c == '_')
      (by decide) c h
  simp only [Bool.or_eq_false_iff] at hplain
  simp [goesOnNumber, hplain]

theorem isDigit_of_stops {c : Char} (h : stops c = true) : c.isDigit = false :=
  @false_of_stops (·.isDigit) (by decide) c h

theorem numberChars_local {radix seenDot : Bool} {prev : Char}
    (h : numberChars radix seenDot prev (q ++ g) = q) (ha : HeadsAgree g g') :
    numberChars radix seenDot prev (q ++ g') = q ∧ ∀ c ∈ q, stops c = false := by
  induction q generalizing seenDot prev with
  | nil =>
    refine ⟨?_, by simp⟩
    have hg : ∀ c, g.head? = some c → goesOnNumber radix seenDot prev c = false := by
      intro c hc
      obtain ⟨tail, rfl⟩ := List.head?_eq_some_iff.1 hc
      rw [List.nil_append, numberChars_cons] at h
      by_contra hgoes
      rw [if_pos (by simpa using hgoes)] at h
      cases h
    cases g' with
    | nil => rfl
    | cons c tail =>
      have hc := ha.stop (fun c hc => goesOnNumber_of_stops hc radix seenDot prev) hg c rfl
      simp [numberChars_cons, hc]
  | cons c q ih =>
    rw [List.cons_append, numberChars_cons] at h ⊢
    split at h
    · rename_i hgoes
      obtain ⟨hq, hstops⟩ := ih (List.cons.inj h).2
      rw [if_pos hgoes, hq]
      exact ⟨rfl, List.forall_mem_cons.2
        ⟨stops_of_test (fun _ h => goesOnNumber_of_stops h _ _ _) hgoes, hstops⟩⟩
    · cases h

/-- The letters that give the radix of a number, behind its zero. -/
def isRadixMark (c : Char) : Bool :=
  c == 'x' || c == 'X' || c == 'o' || c == 'O' || c == 'b' || c == 'B'

def hasRadix : List Char → Bool
  | '0' :: m :: _ => isRadixMark m
  | _ => false

theorem numberToken_eq (cur : Cursor) :
    (numberToken cur).1.kind = .number ∧ (numberToken cur).2.rest =
      cur.rest.drop (numberChars (hasRadix cur.rest) false '\x00' cur.rest).length := by
  refine ⟨rfl, ?_⟩
  unfold numberToken hasRadix isRadixMark
  split <;> simp_all [Cursor.jump]

theorem hasRadix_cons (h : ∀ m, g.head? = some m → isRadixMark m = false) :
    hasRadix (c :: g) = false := by
  unfold hasRadix
  split
  · rename_i m tail heq
    obtain ⟨-, rfl⟩ := List.cons.inj heq
    exact h m rfl
  · rfl

/-- A zero that is all of a number is not followed by a radix mark. -/
theorem hasRadix_local (hq : q ≠ []) (h : numberChars (hasRadix (q ++ g)) false '\x00' (q ++ g) = q)
    (ha : HeadsAgree g g') : hasRadix (q ++ g') = hasRadix (q ++ g) := by
  match q with
  | [] => exact absurd rfl hq
  | c :: d :: q =>
    by_cases hc : c = '0'
    · subst hc
      rfl
    · simp [hasRadix, hc]
  | [c] =>
    have hg : ∀ m, g.head? = some m → isRadixMark m = false := by
      intro m hm
      obtain ⟨tail, rfl⟩ := List.head?_eq_some_iff.1 hm
      by_contra hmark
      rw [Bool.not_eq_false] at hmark
      have hgoes (radix : Bool) : goesOnNumber radix (false || c == '.') c m = true := by
        simp only [isRadixMark, Bool.or_eq_true, beq_iff_eq] at hmark
        rcases hmark with ((((rfl | rfl) | rfl) | rfl) | rfl) | rfl <;> rfl
      rw [List.singleton_append, numberChars_cons] at h
      split at h
      · rw [numberChars_cons, if_pos (hgoes _)] at h
        cases (List.cons.inj h).2
      · cases h
    have hstops (m : Char) (hm : stops m = true) : isRadixMark m = false :=
      false_of_stops (by decide) hm
    rw [List.singleton_append, List.singleton_append, hasRadix_cons hg,
      hasRadix_cons (ha.stop hstops hg)]

/-- **A number is read alike before texts that agree.** -/
theorem numberToken_local {pos pos' : Nat} {q g g' : List Char}
    (h : (numberToken ⟨pos, q ++ g⟩).2.rest = g) (hq : q ≠ []) (ha : HeadsAgree g g') :
    (numberToken ⟨pos', q ++ g'⟩).2.rest = g' ∧ EndsInside q := by
  rw [(numberToken_eq _).2] at h ⊢
  have hchars : numberChars (hasRadix (q ++ g)) false '\x00' (q ++ g) = q := by
    have := numberChars_append (hasRadix (q ++ g)) false '\x00' (q ++ g)
    rw [h] at this
    exact List.append_cancel_right this
  obtain ⟨hlocal, hstops⟩ := numberChars_local hchars ha
  simp only [hasRadix_local hq hchars ha, hlocal, List.drop_left, endsInside_of_forall hstops,
    and_self]

/-! ## Words -/

/-- A text that a word does not go on with. -/
def EndsWordAt (g : List Char) : Prop :=
  (∀ c, g.head? = some c → isIdentifierPart c = false) ∧ ∀ tail, g ≠ '\\' :: 'u' :: tail

theorem identifierBody_stop (h : EndsWordAt g) (pos : Nat) :
    identifierBody ⟨pos, g⟩ = ([], ⟨pos, g⟩) := by
  rw [identifierBody]
  split
  · rfl
  · rename_i tail heq
    exact absurd heq (h.2 tail)
  · rename_i c rest _ heq
    obtain rfl : g = c :: rest := heq
    rw [if_neg (by simp [h.1 c rfl])]

theorem Agree.endsWordAt (h : Agree g g') (hg : EndsWordAt g) : EndsWordAt g' := by
  refine ⟨h.heads.stop (fun c => isIdentifierPart_of_stops) hg.1, fun tail htail => ?_⟩
  obtain ⟨q, f, f', rfl, hg', hf, -⟩ := h
  rw [hg'] at htail
  rcases q with - | ⟨d, - | ⟨e, q⟩⟩
  · have hstop := (hf.resolve_right fun h => h.1 rfl) '\\' (by rw [← List.nil_append f', htail]; rfl)
    cases hstop
  · obtain ⟨rfl, rfl⟩ := List.cons.inj htail
    rcases hf with hf | ⟨-, c, hc, -, hne⟩
    · cases hf 'u' rfl
    · exact hne (Option.some.inj hc).symm
  · obtain ⟨rfl, htail'⟩ := List.cons.inj htail
    obtain rfl := List.head_eq_of_cons_eq htail'
    exact hg.2 (q ++ f) rfl

theorem identifierBody_escape (pos : Nat) (tail : List Char) :
    identifierBody ⟨pos, '\\' :: 'u' :: tail⟩ =
      ((unicodeEscape ⟨pos + 2, tail⟩).char ::
          (identifierBody (unicodeEscape ⟨pos + 2, tail⟩).cursor).1,
        (identifierBody (unicodeEscape ⟨pos + 2, tail⟩).cursor).2) := by
  rw [identifierBody]
  rfl

theorem identifierBody_part (hc : isIdentifierPart c = true) (pos : Nat) (rest : List Char) :
    identifierBody ⟨pos, c :: rest⟩ =
      (c :: (identifierBody ⟨pos + c.utf8Size, rest⟩).1,
        (identifierBody ⟨pos + c.utf8Size, rest⟩).2) := by
  rw [identifierBody]
  split
  · rename_i heq
    cases heq
  · rename_i tail heq
    obtain rfl : c = '\\' := (List.cons.inj heq).1
    have hback : isIdentifierPart '\\' = false := by decide +kernel
    rw [hback] at hc
    cases hc
  · rename_i heq
    obtain ⟨rfl, rfl⟩ := List.cons.inj heq
    rw [if_pos hc]

theorem endsInside_escape {taken more : List Char} (htaken : EndsInside taken)
    (hmore : EndsInside more) : EndsInside ('\\' :: 'u' :: (taken ++ more)) := by
  cases more with
  | nil =>
    rw [List.append_nil]
    cases taken with
    | nil =>
      intro c hc
      obtain rfl := Option.some.inj hc
      decide
    | cons d taken => exact htaken.append ['\\', 'u'] (by simp)
  | cons d more => exact hmore.append ('\\' :: 'u' :: taken) (by simp)

/-- **A word is read alike before texts that agree.** At the end of a source it has no escapes, or
the other text ends there, too. -/
theorem identifierBody_local {cur : Cursor} {q g g' : List Char} (hcur : cur.rest = q ++ g)
    (h : (identifierBody cur).2.rest = g) (hend : g = [] → g' = [] ∨ '\\' ∉ q) (ha : Agree g g')
    (pos' : Nat) :
    (identifierBody ⟨pos', q ++ g'⟩).1 = (identifierBody cur).1 ∧
      (identifierBody ⟨pos', q ++ g'⟩).2.rest = g' ∧ (g ≠ [] ∨ '\\' ∉ q → EndsInside q) := by
  have hnil {pos : Nat} {g : List Char} (h : EndsWordAt g) :
      (identifierBody ⟨pos, [] ++ g⟩).1 = [] ∧ (identifierBody ⟨pos, [] ++ g⟩).2.rest = g := by
    rw [List.nil_append, identifierBody_stop h]
    exact ⟨rfl, rfl⟩
  fun_induction identifierBody cur generalizing q pos' with
  | case1 cur hrest =>
    obtain ⟨rfl, rfl⟩ := List.append_eq_nil_iff.1 (hcur.symm.trans hrest)
    obtain ⟨hname, hrest'⟩ := @hnil pos' _ (ha.endsWordAt ⟨by simp, by simp⟩)
    exact ⟨hname, hrest', fun _ => by simp [EndsInside]⟩
  | case2 cur tail hrest _ _ name after hbody =>
    rename_i ih
    have hafter := identifierBody_reaches (unicodeEscape ⟨cur.pos + 2, tail⟩).cursor
    rw [hbody] at hafter ih
    obtain ⟨more, hmore, -⟩ := hafter
    obtain ⟨taken, htaken, -⟩ := unicodeEscape_reaches ⟨cur.pos + 2, tail⟩
    obtain rfl : after.rest = g := h
    obtain rfl : tail = taken ++ (more ++ after.rest) := by
      rw [← hmore]
      exact htaken
    obtain rfl : q = '\\' :: 'u' :: (taken ++ more) := by
      refine List.append_cancel_right (hcur.symm.trans (hrest.trans ?_))
      simp
    have hempty : after.rest = [] → g' = [] := fun hnil =>
      (hend hnil).resolve_right fun hback => hback (by simp)
    obtain ⟨hescape, hinside⟩ := @unicodeEscape_local (cur.pos + 2) (pos' + 2) taken
      (more ++ after.rest) (more ++ g') hmore (by simp +contextual [hempty]) (ha.heads_append more)
    obtain ⟨hname, hrest', hends⟩ := ih hmore rfl (fun hnil => .inl (hempty hnil))
      (pos' + 2 + byteLength taken)
    have hread := identifierBody_escape pos' (taken ++ (more ++ g'))
    rw [hescape] at hread
    simp only [List.cons_append, List.append_assoc]
    rw [hread]
    refine ⟨congrArg _ hname, hrest', fun hne => ?_⟩
    have hne' : after.rest ≠ [] := hne.resolve_right fun hback => hback (by simp)
    exact endsInside_escape (hinside (by simp [hne'])) (hends (.inl hne'))
  | case3 cur c rest hu hrest hpart name after hbody ih =>
    have hafter := identifierBody_reaches ⟨cur.pos + c.utf8Size, rest⟩
    rw [hbody] at hafter ih
    obtain ⟨more, hmore, -⟩ := hafter
    obtain rfl : after.rest = g := h
    obtain rfl : rest = more ++ after.rest := hmore
    obtain rfl : q = c :: more := List.append_cancel_right (hcur.symm.trans hrest)
    obtain ⟨hname, hrest', hends⟩ := ih rfl rfl
      (fun hnil => (hend hnil).imp_right fun hback hmem => hback (by simp [hmem]))
      (pos' + c.utf8Size)
    rw [List.cons_append, identifierBody_part hpart]
    refine ⟨congrArg (c :: ·) hname, hrest', fun hne => ?_⟩
    cases more with
    | nil =>
      refine endsInside_of_forall fun d hd => ?_
      obtain rfl := List.mem_singleton.1 hd
      exact stops_of_test (fun _ => isIdentifierPart_of_stops) hpart
    | cons d more =>
      exact (hends (hne.imp_right fun hback hmem => hback (by simp [hmem]))).append [c] (by simp)
  | case4 cur c rest hu hrest hpart =>
    obtain rfl : q = [] := by
      have : q ++ g = g := hcur.symm.trans h
      simpa using this
    have hstop : EndsWordAt g := by
      rw [List.nil_append, hrest] at hcur
      subst hcur
      refine ⟨fun d hd => ?_, fun tail htail => ?_⟩
      · obtain rfl := Option.some.inj hd
        simpa using hpart
      · obtain ⟨rfl, rfl⟩ := List.cons.inj htail
        exact hu tail rfl rfl
    obtain ⟨hname, hrest'⟩ := @hnil pos' _ (ha.endsWordAt hstop)
    exact ⟨hname, hrest', fun _ => by simp [EndsInside]⟩

/-! ## Punctuators -/

theorem start_punctuator {x : List Char × Kind} (hx : x ∈ punctuators) :
    ∀ c ∈ x.1, isIdentifierStart c = false := by
  have htable : ∀ x ∈ punctuators, x.1.all (!isIdentifierStart ·) = true := by decide +kernel
  intro c hc
  simpa using List.all_eq_true.1 (htable x hx) c hc

/-- No character of a punctuator ends a token, unless the punctuator is that character. -/
theorem stops_punctuator {x : List Char × Kind} (hx : x ∈ punctuators) (hlength : 1 < x.1.length) :
    ∀ c ∈ x.1, stops c = false := by
  have htable : ∀ x ∈ punctuators, 1 < x.1.length → x.1.all (!stops ·) = true := by decide
  intro c hc
  simpa using List.all_eq_true.1 (htable x hx hlength) c hc

theorem Agree.point {rest' : List Char} (ha : Agree ('.' :: rest) ('.' :: rest')) {d : Char}
    (hd : rest.head? = some d) (hdigit : d.isDigit = true) : rest'.head? = some d := by
  obtain ⟨p, f, f', hf, hf', hstopped, hpoint⟩ := ha
  cases p with
  | nil =>
    cases hf'
    cases (hstopped.resolve_right fun h => h.1 rfl) '.' rfl
  | cons c p =>
    obtain ⟨rfl, rfl⟩ := List.cons.inj hf
    obtain ⟨-, rfl⟩ := List.cons.inj hf'
    cases p with
    | nil =>
      have := hpoint rfl d hd
      rw [hdigit] at this
      cases this
    | cons c p => exact hd

/-- **The longest punctuator stays the longest** if what follows it agrees. -/
theorem punctuator?_local {kind : Kind} (h : punctuator? (q ++ g) = some (kind, q.length))
    (hq : q ≠ []) (ha : Agree g g') : punctuator? (q ++ g') = some (kind, q.length) := by
  obtain ⟨hmem, -, hsplit, -⟩ := punctuator?_inv h
  rw [List.take_left] at hmem hsplit
  rw [List.drop_left] at hsplit
  refine punctuator?_eq_some_iff.2 ⟨q, hmem, rfl, ⟨g', rfl, ?_⟩, ?_⟩
  · -- A digit would follow the point in the first text, too.
    rintro ⟨rfl, d, hd, hdigit⟩
    rcases ha.heads d hd with hstop | hsame
    · rw [isDigit_of_stops hstop] at hdigit
      cases hdigit
    · exact hsplit ⟨rfl, d, hsame, hdigit⟩
  · rintro ⟨text, kind'⟩ hx ⟨rest', htext, hwhole⟩
    refine Nat.le_of_not_lt fun hlt => ?_
    -- The longer punctuator would be there in the first text, too.
    obtain ⟨r, rfl⟩ : q <+: text :=
      List.prefix_of_prefix_length_le ⟨g', rfl⟩ ⟨rest', htext.symm⟩ (Nat.le_of_lt hlt)
    obtain rfl : g' = r ++ rest' := by simpa using htext
    have hpos := List.length_pos_iff.2 hq
    have hmarks : ∀ c ∈ r, stops c = false ∧ isIdentifierStart c = false := fun c hc =>
      ⟨stops_punctuator hx (Nat.lt_of_le_of_lt hpos hlt) c (List.mem_append_right q hc),
        start_punctuator hx c (List.mem_append_right q hc)⟩
    obtain ⟨rest, rfl⟩ := ha.prefix (List.prefix_append r rest') hmarks
    refine Nat.not_le_of_lt hlt (punctuator?_longest h hx ⟨rest, by simp, ?_⟩)
    rintro ⟨hpoint, d, hd, hdigit⟩
    obtain ⟨c, q, rfl⟩ := List.exists_cons_of_ne_nil hq
    obtain ⟨rfl, htail⟩ := List.cons.inj hpoint
    have hr : r ≠ [] := by
      rintro rfl
      simp at hlt
    obtain ⟨rfl, rfl⟩ := (List.append_eq_singleton_iff.1 htail).resolve_right fun h => hr h.2
    exact hwhole ⟨rfl, d, ha.point hd hdigit, hdigit⟩

/-- **The longest punctuator stays the longest** before a word. -/
theorem punctuator?_opensWord {kind : Kind} (h : punctuator? (q ++ g) = some (kind, q.length))
    (hg' : OpensWord g') : punctuator? (q ++ g') = some (kind, q.length) := by
  obtain ⟨hmem, -⟩ := punctuator?_inv h
  rw [List.take_left] at hmem
  obtain ⟨c, hc, hstart, -⟩ := hg'
  refine punctuator?_eq_some_iff.2 ⟨q, hmem, rfl, ⟨g', rfl, ?_⟩, ?_⟩
  · rintro ⟨-, d, hd, hdigit⟩
    obtain rfl := Option.some.inj (hc.symm.trans hd)
    rw [isDigit_of_start hstart] at hdigit
    cases hdigit
  · rintro ⟨text, kind'⟩ hx ⟨rest', htext, -⟩
    refine Nat.le_of_not_lt fun hlt => ?_
    -- A longer punctuator would have the first letter of the word.
    obtain ⟨r, rfl⟩ : q <+: text :=
      List.prefix_of_prefix_length_le ⟨g', rfl⟩ ⟨rest', htext.symm⟩ (Nat.le_of_lt hlt)
    obtain rfl : g' = r ++ rest' := by simpa using htext
    cases r with
    | nil => simp at hlt
    | cons d r =>
      obtain rfl := Option.some.inj hc
      have := start_punctuator hx d (by simp)
      rw [hstart] at this
      cases this

end ModuleForge.Token
