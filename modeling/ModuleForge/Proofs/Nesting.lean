import ModuleForge.Proofs.Loops

/-!
# Tokens as parts of their source

Every token is cut out of the source, and a template literal holds the tokens of its substitutions
one behind another, with its braces in pairs.

- `Formed src t`: the span of `t` is a slice of `src` that its value repeats, unless it is cooked,
  and the same holds of the tokens inside it.
- `nextToken_formed`, `scan_formed`: every token is formed, on every source.
-/

namespace ModuleForge.Token

open Text Cursor

variable {a b : Cursor} {src : List Char}

/-! ## Rows and braces -/

/-- Tokens one behind another between two offsets, none of them empty. -/
inductive Row : Nat → List Token → Nat → Prop
  | nil {lo hi : Nat} : lo ≤ hi → Row lo [] hi
  | cons {lo hi : Nat} {t : Token} {rest : List Token} : lo ≤ t.span.start →
      t.span.start < t.span.stop → Row t.span.stop rest hi → Row lo (t :: rest) hi

theorem Row.mono {lo lo' hi hi' : Nat} {ts : List Token} (h : Row lo ts hi) (hlo : lo' ≤ lo)
    (hhi : hi ≤ hi') : Row lo' ts hi' := by
  induction h generalizing lo' with
  | nil h => exact .nil (by omega)
  | cons h1 h2 _ ih => exact .cons (by omega) h2 (ih (Nat.le_refl _) hhi)

theorem Row.append {lo mid hi : Nat} {ts us : List Token} (h1 : Row lo ts mid)
    (h2 : Row mid us hi) : Row lo (ts ++ us) hi := by
  induction h1 with
  | nil h => exact h2.mono h (Nat.le_refl _)
  | cons hlo hlt _ ih => exact .cons hlo hlt (ih h2)

/-- The number of opening braces. -/
def opens (ts : List Token) : Nat :=
  ts.countP (·.kind == .lbrace)

/-- The number of closing braces. -/
def closes (ts : List Token) : Nat :=
  ts.countP (·.kind == .rbrace)

/-- The tokens close `depth` braces more than they open, and none that is open neither before them
nor among them. -/
def ClosesFrom (depth : Nat) (ts : List Token) : Prop :=
  closes ts = opens ts + depth ∧ ∀ k, closes (ts.take k) ≤ opens (ts.take k) + depth

/-- Braces in pairs: no prefix closes more than it opens, and the whole closes all it opens. -/
def Balanced (ts : List Token) : Prop :=
  closes ts = opens ts ∧ ∀ k, closes (ts.take k) ≤ opens (ts.take k)

theorem ClosesFrom.nil : ClosesFrom 0 [] :=
  ⟨rfl, fun k => by simp [closes]⟩

theorem ClosesFrom.append {ts us : List Token} (h1 : ClosesFrom 0 ts) (h2 : ClosesFrom 0 us) :
    ClosesFrom 0 (ts ++ us) := by
  refine ⟨?_, fun k => ?_⟩
  · have := h1.1
    have := h2.1
    simp only [closes, opens, List.countP_append] at *
    omega
  · have := h1.2 k
    have := h2.2 (k - ts.length)
    have htake := h1.1
    rw [List.take_append]
    simp only [closes, opens, List.countP_append] at *
    omega

/-- A token before others, with the braces that are open behind it. -/
theorem ClosesFrom.cons {depth depth' : Nat} {t : Token} {ts : List Token}
    (h : ClosesFrom depth' ts)
    (hdepth : depth + opens [t] = depth' + closes [t]) : ClosesFrom depth (t :: ts) := by
  have hcons (us : List Token) : closes (t :: us) = closes [t] + closes us ∧
      opens (t :: us) = opens [t] + opens us := by
    simp only [closes, opens, List.countP_cons, List.countP_nil]
    omega
  refine ⟨?_, fun k => ?_⟩
  · have := h.1
    have := hcons ts
    omega
  · cases k with
    | zero => simp [closes]
    | succ k =>
      have := h.2 k
      have := hcons (ts.take k)
      rw [List.take_succ_cons]
      omega

/-! ## Formed tokens -/

/-- A kind whose tokens have a value that need not be their text: words and strings, in which
escapes are replaced, and errors, which carry a message. -/
def Kind.isCooked (kind : Kind) : Bool :=
  kind == .string || kind == .error || kind == .identifier || keywords.any (·.2 == kind)

/-- **Formed tokens.** A token is cut out of the source. Its value is the text that it covers, unless
it is cooked; for a template it is what stands between the quotes, where the tokens of the
substitutions are formed too, stand in a row and have their braces in pairs. -/
inductive Formed (src : List Char) : Token → Prop
  | plain {t : Token} {text : List Char} : t.kind ≠ .template → t.span.text? src = some text →
      (t.kind.isCooked = false → t.value.toList = text) → t.substitutions = [] → Formed src t
  | template {t : Token} : t.kind = .template →
      t.span.text? src = some ('`' :: (t.value.toList ++ ['`'])) →
      Row (t.span.start + 1) t.substitutions (t.span.stop - 1) → Balanced t.substitutions →
      (∀ s ∈ t.substitutions, Formed src s) → Formed src t

theorem Formed.withNewline {t : Token} (h : Formed src t) (newline : Bool) :
    Formed src { t with newlineBefore := newline } := by
  cases h with
  | plain hk ht hv hs => exact .plain hk ht hv hs
  | template hk ht hr hb hs => exact .template hk ht hr hb hs

theorem slice?_of_reaches {src taken : List Char} {a b : Cursor} (ha : Reaches ⟨0, src⟩ a)
    (hrest : a.rest = taken ++ b.rest) (hpos : b.pos = a.pos + byteLength taken) :
    slice? a.pos b.pos src = some taken := by
  obtain ⟨before, hsrc, ha⟩ := ha
  obtain rfl : src = before ++ a.rest := hsrc
  rw [hpos, ha, hrest]
  simpa using slice?_append before taken b.rest

theorem Kind.ne_template_of_isCooked {kind : Kind} (h : kind.isCooked = true) :
    kind ≠ .template := by
  rintro rfl
  revert h
  decide

/-- A cooked token only has to have its place. -/
theorem formed_of_isCooked {t : Token} (hk : t.kind.isCooked = true) (ha : Reaches ⟨0, src⟩ a)
    (hab : a.Reaches b) (hspan : t.span = ⟨a.pos, b.pos⟩) (hsub : t.substitutions = []) :
    Formed src t := by
  obtain ⟨taken, hrest, hpos⟩ := hab
  refine .plain (Kind.ne_template_of_isCooked hk) (?_ : _ = some taken) (fun h => ?_) hsub
  · rw [hspan]
    exact slice?_of_reaches ha hrest hpos
  · rw [hk] at h
    cases h

theorem ofError_formed (ha : Reaches ⟨0, src⟩ a) (hab : a.Reaches b) (e : LexError) :
    Formed src (ofError a.pos b.pos e) :=
  formed_of_isCooked rfl ha hab rfl rfl

/-- The value of a token between two cursors is the text that it takes. -/
theorem between_formed {kind : Kind} (hk : kind ≠ .template) (ha : Reaches ⟨0, src⟩ a)
    (hab : a.Reaches b) : Formed src (between kind a b) := by
  obtain ⟨taken, hrest, hpos⟩ := hab
  have hvalue : (between kind a b).value.toList = taken := by simp [between, hrest]
  exact .plain hk (slice?_of_reaches ha hrest hpos) (fun _ => hvalue) rfl

/-! ## One token -/

theorem keyword?_isCooked {word : String} {kind : Kind} (h : keyword? word = some kind) :
    kind.isCooked = true := by
  obtain ⟨l1, l2, hl, -⟩ := List.lookup_eq_some_iff.1 h
  have hmem : keywords.any (·.2 == kind) = true :=
    List.any_eq_true.2 ⟨(word, kind), by simp [hl], by simp⟩
  simp [Kind.isCooked, hmem]

/-- A token that is no template: cooked, or the text between two cursors. -/
inductive Plain (a b : Cursor) : Token → Prop
  | cooked {t : Token} : t.kind.isCooked = true → t.substitutions = [] → Plain a b t
  | between {kind : Kind} : kind ≠ .template → Plain a b (between kind a b)

theorem stringToken_plain (quote : Char) (cur : Cursor) :
    Plain cur (stringToken quote cur).2 (stringToken quote cur).1 := by
  simp only [stringToken]
  split <;> exact .cooked rfl rfl

theorem privateToken_plain (cur : Cursor) :
    Plain cur (privateToken cur).2 (privateToken cur).1 := by
  simp only [privateToken]
  split
  · exact .cooked rfl rfl
  · exact .between (by decide)

theorem regexToken_plain (cur : Cursor) : Plain cur (regexToken cur).2 (regexToken cur).1 := by
  unfold regexToken
  split
  · exact .between (by decide)
  · exact .cooked rfl rfl

theorem wordToken_plain (last : Option Kind) (cur : Cursor) :
    Plain cur (wordToken last cur).2 (wordToken last cur).1 := by
  refine .cooked ?_ rfl
  simp only [wordToken]
  split
  · rfl
  · cases hk : keyword? (String.ofList (identifierBody cur).1) with
    | none => rfl
    | some kind => exact keyword?_isCooked hk

theorem punctuatorToken_plain (c : Char) (cur : Cursor) :
    Plain cur (punctuatorToken c cur).2 (punctuatorToken c cur).1 := by
  unfold punctuatorToken
  split
  · rename_i hk
    exact .between (punctuator?_kind hk).2.2.2.1
  · exact .cooked rfl rfl

theorem plainToken_plain (last : Option Kind) (c : Char) (cur : Cursor) :
    Plain cur (plainToken last c cur).2 (plainToken last c cur).1 := by
  have hread := plainToken_readBy last c cur
  generalize plainToken last c cur = out at hread ⊢
  cases hread with
  | string => exact stringToken_plain c cur
  | number => exact .between (by decide)
  | privateName => exact privateToken_plain cur
  | regex => exact regexToken_plain cur
  | word => exact wordToken_plain last cur
  | punctuator => exact punctuatorToken_plain c cur

theorem plainToken_formed {c : Char} {cur : Cursor} {rest : List Char} (last : Option Kind)
    (hcur : Reaches ⟨0, src⟩ cur) (h : cur.rest = c :: rest) :
    Formed src (plainToken last c cur).1 := by
  have hcov := plainToken_covers last h
  have hplain := plainToken_plain last c cur
  generalize (plainToken last c cur).1 = t, (plainToken last c cur).2 = after at *
  cases hplain with
  | cooked hk hs => exact formed_of_isCooked hk hcur hcov.passes.1 hcov.span hs
  | between hk => exact between_formed hk hcur hcov.passes.1

/-! ## Templates -/

/-- How the inside of a template was read: an error token, or formed tokens in a row that close
`depth` braces more than they open. The mark that ends the inside takes one byte. -/
inductive Filled (src : List Char) (depth : Nat) (r : Reader) :
    Except Token (List Token) × Reader → Prop
  | error {t : Token} {after : Reader} : Formed src t → Filled src depth r (.error t, after)
  | ok {ts : List Token} {after : Reader} {hi : Nat} : after.cursor.pos = hi + 1 →
      Row r.cursor.pos ts hi → ClosesFrom depth ts → (∀ t ∈ ts, Formed src t) →
      Filled src depth r (.ok ts, after)

theorem Filled.of_reaches {depth : Nat} {r r' : Reader} {out : Except Token (List Token) × Reader}
    (h1 : r.cursor.Reaches r'.cursor) (h2 : Filled src depth r' out) : Filled src depth r out := by
  cases h2 with
  | error ht => exact .error ht
  | ok hend hrow hbal hall => exact .ok hend (hrow.mono h1.pos_le (Nat.le_refl _)) hbal hall

theorem Filled.prepend {src : List Char} {depth depth' : Nat} {r r' : Reader} {ts : List Token}
    {out : Except Token (List Token) × Reader} (h : Filled src depth' r' out)
    (hrow : Row r.cursor.pos ts r'.cursor.pos)
    (hcloses : ∀ us, ClosesFrom depth' us → ClosesFrom depth (ts ++ us))
    (hts : ∀ t ∈ ts, Formed src t) : Filled src depth r (prepend ts out) := by
  cases h with
  | error ht => exact .error ht
  | ok hend hrow' hbal hall =>
    refine .ok hend (hrow.append hrow') (hcloses _ hbal) fun t ht => ?_
    exact (List.mem_append.1 ht).elim (hts t) (hall t)

theorem templateBody_quote {start : Nat} {r : Reader} {ts : List Token} {after : Reader}
    (h : templateBody start r = (.ok ts, after)) :
    ∃ text, r.cursor.rest = text ++ '`' :: after.cursor.rest ∧
      after.cursor.pos = r.cursor.pos + byteLength text + 1 := by
  rw [templateBody] at h
  split at h
  · cases h
  · rename_i rest hrest
    cases h
    exact ⟨[], hrest, rfl⟩
  · cases h
  · rename_i c rest hrest
    have hlt : rest.length < r.left := by simp only [Reader.left, hrest, List.length_cons]; omega
    obtain ⟨text, htext, hpos⟩ := templateBody_quote h
    have hslash : '\\'.utf8Size = 1 := rfl
    refine ⟨'\\' :: c :: text, ?_, ?_⟩
    · rw [hrest, show rest = _ from htext]
      rfl
    · simp only [byteLength_cons, hslash] at hpos ⊢
      omega
  · rename_i rest hrest
    cases hs : substitution start 0 ⟨some .lbrace, ⟨r.cursor.pos + 2, rest⟩⟩ with | mk result mid
    have hlt := substitution_left_lt hrest hs
    have hinside := substitution_inside start 0 ⟨some .lbrace, ⟨r.cursor.pos + 2, rest⟩⟩
    rw [hs] at h hinside
    obtain ⟨taken, htaken, hmid⟩ := hinside.1
    cases result with
    | error t => cases h
    | ok tokens =>
      simp only [if_pos hlt] at h
      cases hb : templateBody start mid with | mk result' after'
      rw [hb] at h
      cases result' with
      | error t => cases h
      | ok ts' =>
        cases h
        obtain ⟨text, htext, hpos⟩ := templateBody_quote hb
        have h1 : '$'.utf8Size = 1 := rfl
        have h2 : '\x7b'.utf8Size = 1 := rfl
        refine ⟨'$' :: '\x7b' :: (taken ++ text), ?_, ?_⟩
        · rw [hrest, show rest = _ from htaken, htext]
          simp
        · simp only [byteLength_cons, byteLength_append, h1, h2] at hpos hmid ⊢
          omega
  · rename_i c rest _ _ _ _ hrest
    have hlt : rest.length < r.left := by simp only [Reader.left, hrest, List.length_cons]; omega
    obtain ⟨text, htext, hpos⟩ := templateBody_quote h
    refine ⟨c :: text, ?_, ?_⟩
    · rw [hrest, show rest = _ from htext]
      rfl
    · simp only [byteLength_cons] at hpos ⊢
      omega
termination_by r.left
decreasing_by
  all_goals simp only [Reader.left] at *
  all_goals omega

mutual

/-- **Every token is formed.** -/
theorem nextToken_formed {src : List Char} (r : Reader) (hr : Reaches ⟨0, src⟩ r.cursor) :
    Formed src (nextToken r).1 := by
  rw [nextToken]
  split
  · rename_i start after h
    obtain ⟨comment, rfl, h1, h2⟩ := passes_of_unterminated h
    exact ofError_formed (hr.trans h1) h2.1 _
  · rename_i newline cur h
    have hcur := hr.trans (reaches_of_clear h)
    split
    · have hempty := @slice?_of_reaches _ [] cur cur hcur rfl rfl
      exact .plain (by simp) hempty (fun _ => rfl) rfl
    · rename_i c rest hc
      split
      · rename_i hq
        obtain rfl : c = '`' := by simpa using hq
        have hlt : rest.length < r.left := by
          have := skipTrivia_length false r.cursor
          rw [h] at this
          simp only [Trivia.cursor, hc, List.length_cons] at this
          exact this
        have hopen : cur.Reaches ⟨cur.pos + 1, rest⟩ := ⟨['`'], hc, rfl⟩
        have hbody := templateBody_filled cur ⟨r.last, ⟨cur.pos + 1, rest⟩⟩ hcur hopen
        split
        rename_i result after hb
        rw [hb] at hbody
        cases hbody with
        | error ht => exact ht.withNewline newline
        | @ok ts after hi hend hrow hbal hall =>
          obtain ⟨text, htext, hpos⟩ := templateBody_quote hb
          have hvalue : rest.take (rest.length - after.left - 1) = text := by
            rw [show rest = _ from htext]
            refine List.take_left' ?_
            simp only [Reader.left, List.length_append, List.length_cons]
            omega
          refine .template rfl ?_ (hrow.mono (Nat.le_refl _) (by simp only; omega)) hbal hall
          simp only [hvalue, String.toList_ofList]
          have hquote : '`'.utf8Size = 1 := rfl
          refine slice?_of_reaches hcur ?_ ?_
          · rw [hc, show rest = _ from htext]
            simp
          · simp only [byteLength_cons, byteLength_append, byteLength_nil, hquote] at hpos ⊢
            omega
      · exact (plainToken_formed r.last hcur hc).withNewline newline
termination_by 2 * r.left

theorem templateBody_filled {src : List Char} (start : Cursor) (r : Reader)
    (hstart : Reaches ⟨0, src⟩ start) (hr : start.Reaches r.cursor) :
    Filled src 0 r (templateBody start.pos r) := by
  rw [templateBody]
  split
  · exact .error (ofError_formed hstart hr _)
  · rename_i rest h
    exact .ok rfl (.nil (Nat.le_refl _)) .nil (by simp)
  · rename_i h
    have h1 : r.cursor.Reaches ⟨r.cursor.pos + 1, []⟩ := ⟨['\\'], h, rfl⟩
    exact .error (ofError_formed hstart (hr.trans h1) _)
  · rename_i c rest h
    have h2 : r.cursor.Reaches ⟨r.cursor.pos + 1 + c.utf8Size, rest⟩ :=
      ⟨['\\', c], h, Nat.add_assoc ..⟩
    have hlt : rest.length < r.left := by simp only [Reader.left, h, List.length_cons]; omega
    exact .of_reaches h2 (templateBody_filled start _ hstart (hr.trans h2))
  · rename_i rest h
    have h2 : r.cursor.Reaches ⟨r.cursor.pos + 2, rest⟩ := ⟨['$', '\x7b'], h, rfl⟩
    have hlt : rest.length + 1 < r.left := by simp only [Reader.left, h, List.length_cons]; omega
    have hsub := substitution_filled start 0 ⟨some .lbrace, ⟨r.cursor.pos + 2, rest⟩⟩ hstart
      (hr.trans h2)
    have hinside := substitution_inside start.pos 0 ⟨some .lbrace, ⟨r.cursor.pos + 2, rest⟩⟩
    cases hs : substitution start.pos 0 ⟨some .lbrace, ⟨r.cursor.pos + 2, rest⟩⟩ with
      | mk result after
    have hlt' := substitution_left_lt h hs
    rw [hs] at hsub hinside
    cases hsub with
    | error ht => exact .error ht
    | ok hend hrow hbal hall =>
      simp only [if_pos hlt']
      have hbody := templateBody_filled start after hstart ((hr.trans h2).trans hinside.1)
      exact hbody.prepend (hrow.mono h2.pos_le (by omega)) (fun us => hbal.append) hall
  · rename_i c rest _ _ _ _ h
    have hlt : rest.length < r.left := by simp only [Reader.left, h, List.length_cons]; omega
    have h1 := (passes_of_rest h).1
    exact .of_reaches h1 (templateBody_filled start _ hstart (hr.trans h1))
termination_by 2 * r.left
decreasing_by
  all_goals simp only [Reader.left] at *
  all_goals omega

theorem substitution_filled {src : List Char} (start : Cursor) (depth : Nat) (r : Reader)
    (hstart : Reaches ⟨0, src⟩ start) (hr : start.Reaches r.cursor) :
    Filled src depth r (substitution start.pos depth r) := by
  have hreads := nextToken_reads r
  have hformed := nextToken_formed r (hstart.trans hr)
  rw [substitution_eq]
  cases hn : nextToken r with | mk token after
  have hlt := nextToken_left_lt hn
  rw [hn] at hreads hformed
  have hr' := hr.trans hreads.reaches
  have hsub (d : Nat) (hk : token.kind ≠ .eof) (hk' : token.kind ≠ .error)
      (hd : depth + opens [token] = d + closes [token]) :
      Filled src depth r (prepend [token] (substitution start.pos d after)) := by
    have := hlt hk
    refine (substitution_filled start d after hstart hr').prepend ?_ (fun us hus => hus.cons hd)
      (by simpa using hformed)
    cases hreads with
    | eof h => exact absurd h hk
    | error h => exact absurd h hk'
    | token cur _ hs hc =>
      have hspan : token.span = ⟨cur.pos, after.cursor.pos⟩ := hc.span
      refine .cons ?_ ?_ (.nil ?_)
      · rw [hspan]; exact (reaches_of_clear hs).pos_le
      · rw [hspan]; exact hc.passes.2
      · exact Nat.le_of_eq (congrArg Span.stop hspan)
  dsimp only at hreads hformed
  simp only [substitutionFrom]
  split <;> rename_i hk
  · exact .error (ofError_formed hstart hr' _)
  · exact .error hformed
  · have := (hreads.passes (by simp [hk])).2
    have hend : after.cursor.pos = after.cursor.pos - 1 + 1 := by omega
    exact .ok hend (.nil (by omega)) .nil (by simp)
  · exact hsub _ (by simp [hk]) (by simp [hk]) (by simp [opens, closes, hk])
  · exact hsub _ (by simp [hk]) (by simp [hk]) (by simp [opens, closes, hk])
  · rename_i d _ _ heof herr hopen hzero
    have hclose : token.kind ≠ .rbrace := by
      intro h
      cases d with
      | zero => exact hzero h rfl
      | succ d => exact hk d h rfl
    exact hsub _ heof herr (by simp [opens, closes, hclose, show token.kind ≠ .lbrace from hopen])
termination_by 2 * r.left + 1

end

/-! ## Whole sources -/

theorem tokensFrom_formed {src : List Char} (r : Reader) (hr : Reaches ⟨0, src⟩ r.cursor) :
    ∀ t ∈ tokensFrom r, Formed src t := by
  have hformed := nextToken_formed r hr
  have hreads := nextToken_reads r
  rw [tokensFrom_eq]
  cases hn : nextToken r with | mk token after
  have hlt := nextToken_left_lt hn
  rw [hn] at hformed hreads
  split
  · simpa using hformed
  · rename_i heof
    have := hlt heof
    have hrest := tokensFrom_formed after (hr.trans hreads.reaches)
    simpa using ⟨hformed, hrest⟩
termination_by r.left

/-- **All tokens of a source are formed**, whatever the source. -/
theorem scan_formed (source : String) : ∀ t ∈ scan source, Formed source.toList t :=
  tokensFrom_formed _ (skipHashbang_reaches ⟨0, source.toList⟩)

end ModuleForge.Token
