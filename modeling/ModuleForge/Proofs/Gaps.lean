import Mathlib.Data.List.TakeWhile
import ModuleForge.Proofs.Cursor

/-!
# Texts between tokens

Blanks and complete comments are all that may stand between two tokens. A comment that starts with
`//` is complete at the end of its line, and so at the end of the source.

- `skipTrivia_blanks`: what is stepped over before a token is such a text, and no blank follows it.
- `skipTrivia_append`: such a text is stepped over, whatever follows it.
-/

namespace ModuleForge.Token

open Text Cursor

variable {c : Char} {cs : List Char}

/-- Blanks and complete comments. A comment that starts with `//` goes on to a line break, or to the
end if the text is the last of its source. -/
inductive Blanks (last : Bool) : List Char → Prop
  | nil : Blanks last []
  | blank {c : Char} {cs : List Char} : isBlank c = true ∨ c = '\ufeff' → Blanks last cs →
      Blanks last (c :: cs)
  | line {body : List Char} {c : Char} {cs : List Char} : (∀ d ∈ body, isLineBreak d = false) →
      isLineBreak c = true → Blanks last (c :: cs) → Blanks last ('/' :: '/' :: (body ++ c :: cs))
  | lastLine {body : List Char} : last = true → (∀ d ∈ body, isLineBreak d = false) →
      Blanks last ('/' :: '/' :: body)
  | block {body cs : List Char} : ¬ ['*', '/'] <:+: body → Blanks last cs →
      Blanks last ('/' :: '*' :: (body ++ '*' :: '/' :: cs))

/-- No blank and no byte order mark comes first. -/
def NoBlank (rest : List Char) : Prop :=
  ∀ c, rest.head? = some c → isBlank c = false ∧ c ≠ '\ufeff'

/-! ## Runs of characters -/

theorem span_append {p : Char → Bool} {body rest : List Char} (hbody : ∀ d ∈ body, p d = true)
    (hrest : ∀ c, rest.head? = some c → p c = false) (pos : Nat) :
    Cursor.span p ⟨pos, body ++ rest⟩ = (body, ⟨pos + byteLength body, rest⟩) := by
  have htake : (body ++ rest).takeWhile p = body := by
    rw [List.takeWhile_append_of_pos hbody]
    cases rest with
    | nil => simp
    | cons c tail => simp [hrest c rfl]
  have hdrop : (body ++ rest).dropWhile p = rest := by
    rw [List.dropWhile_append_of_pos hbody]
    cases rest with
    | nil => simp
    | cons c tail => simp [hrest c rfl]
  simp only [Cursor.span, Cursor.jump, htake, hdrop]

theorem span_spec (p : Char → Bool) (cur : Cursor) :
    cur.rest = (cur.span p).1 ++ (cur.span p).2.rest ∧ (∀ d ∈ (cur.span p).1, p d = true) ∧
      ∀ c, (cur.span p).2.rest.head? = some c → p c = false := by
  refine ⟨List.takeWhile_append_dropWhile.symm, fun d hd => List.mem_takeWhile_imp hd,
    fun c hc => ?_⟩
  obtain ⟨tail, htail⟩ := List.head?_eq_some_iff.1 hc
  have := List.head?_dropWhile_not p cur.rest
  rw [show cur.rest.dropWhile p = c :: tail from htail] at this
  simpa using this

/-! ## Comments -/

theorem not_infix_cons (hcs : ¬ ['*', '/'] <:+: cs) (hc : c = '*' → cs.head? ≠ some '/') :
    ¬ ['*', '/'] <:+: c :: cs := by
  rw [List.infix_cons_iff]
  rintro (⟨tail, h⟩ | h)
  · simp only [List.cons_append, List.nil_append, List.cons.injEq] at h
    exact hc h.1.symm (by rw [← h.2]; rfl)
  · exact hcs h

/-- A comment that is closed was read up to the first mark that closes it. -/
theorem blockComment_closed {newline : Bool} {pos : Nat}
    (h : (blockComment newline pos cs).closed = true) :
    ∃ body, cs = body ++ '*' :: '/' :: (blockComment newline pos cs).cursor.rest ∧
      ¬ ['*', '/'] <:+: body := by
  fun_induction blockComment newline pos cs with
  | case1 => cases h
  | case2 newline pos rest => exact ⟨[], rfl, by simp⟩
  | case3 newline pos c rest hne ih =>
    obtain ⟨body, hrest, hbody⟩ := ih h
    refine ⟨c :: body, congrArg (c :: ·) hrest, not_infix_cons hbody ?_⟩
    rintro rfl hhead
    obtain ⟨tail, rfl⟩ := List.head?_eq_some_iff.1 hhead
    exact hne _ rfl hrest

/-- A comment is read up to its first closing mark. -/
theorem blockComment_append {body : List Char} (h : ¬ ['*', '/'] <:+: body) (newline : Bool)
    (pos : Nat) (rest : List Char) :
    ∃ newline', blockComment newline pos (body ++ '*' :: '/' :: rest) =
      ⟨true, newline', ⟨pos + byteLength body + 2, rest⟩⟩ := by
  induction body generalizing newline pos with
  | nil => exact ⟨newline, rfl⟩
  | cons c body ih =>
    have hbody : ¬ ['*', '/'] <:+: body := fun hi => h (List.infix_cons hi)
    have hne : ∀ tail, c = '*' → body ++ '*' :: '/' :: rest = '/' :: tail → False := by
      rintro tail rfl heq
      cases body with
      | nil => simp at heq
      | cons d body =>
        obtain rfl : d = '/' := (List.cons.inj heq).1
        exact h ⟨[], body, rfl⟩
    obtain ⟨newline', hread⟩ := ih hbody (newline || isLineBreak c) (pos + c.utf8Size)
    refine ⟨newline', ?_⟩
    rw [List.cons_append, blockComment.eq_3 _ _ _ _ hne, hread]
    simp only [byteLength_cons, Nat.add_assoc]

/-! ## Blanks and comments -/

/-- Where a line break comes next, a part behind which there is no blank starts with it. -/
theorem head_of_noBlank {text rest : List Char} (hc : isLineBreak c = true)
    (h : (text ++ rest).head? = some c) (hrest : NoBlank rest) : ∃ cs, text = c :: cs := by
  cases text with
  | nil => exact absurd (isBlank_of_isLineBreak hc) (by simp [(hrest c h).1])
  | cons d cs => exact ⟨cs, by rw [Option.some.inj h]⟩

/-- **What stands before a token** is a text of blanks and complete comments, and no blank follows
it. -/
theorem skipTrivia_blanks {newline newline' : Bool} {cur after : Cursor}
    (h : skipTrivia newline cur = .clear newline' after) :
    ∃ text, cur.rest = text ++ after.rest ∧ Blanks after.rest.isEmpty text ∧
      NoBlank after.rest := by
  fun_induction skipTrivia newline cur with
  | case1 newline cur tail htail ih =>
    obtain ⟨text, hrest, hblanks, hno⟩ := ih h
    obtain ⟨hsplit, hbody, hstop⟩ := span_spec (!isLineBreak ·) ⟨cur.pos + 2, tail⟩
    generalize Cursor.span (!isLineBreak ·) ⟨cur.pos + 2, tail⟩ = line at *
    replace hbody : ∀ d ∈ line.1, isLineBreak d = false := by simpa using hbody
    refine ⟨'/' :: '/' :: (line.1 ++ text), ?_, ?_, hno⟩
    · rw [htail, show tail = _ from hsplit, hrest]
      simp
    · cases hline : line.2.rest with
      | nil =>
        have hnil := List.append_eq_nil_iff.1 (hrest.symm.trans hline)
        rw [hnil.1, List.append_nil]
        exact .lastLine (by rw [hnil.2]; rfl) hbody
      | cons c cs =>
        have hc : isLineBreak c = true := by simpa using hstop c (by rw [hline]; rfl)
        obtain ⟨cs', rfl⟩ := head_of_noBlank hc (by rw [← hrest, hline]; rfl) hno
        exact .line hbody hc hblanks
  | case2 newline cur tail htail hclosed ih =>
    obtain ⟨text, hrest, hblanks, hno⟩ := ih h
    obtain ⟨body, hbody, hinfix⟩ := blockComment_closed hclosed
    refine ⟨'/' :: '*' :: (body ++ '*' :: '/' :: text), ?_, .block hinfix hblanks, hno⟩
    rw [htail, hbody, hrest]
    simp
  | case3 => cases h
  | case4 newline cur c rest _ _ hrest hc ih =>
    obtain ⟨text, htext, hblanks, hno⟩ := ih h
    exact ⟨c :: text, hrest.trans (congrArg (c :: ·) htext),
      .blank (.inl (isBlank_of_isLineBreak hc)) hblanks, hno⟩
  | case5 newline cur c rest _ _ hrest _ hc ih =>
    obtain ⟨text, htext, hblanks, hno⟩ := ih h
    exact ⟨c :: text, hrest.trans (congrArg (c :: ·) htext), .blank (by simpa using hc) hblanks,
      hno⟩
  | case6 newline cur c rest _ _ hrest hbreak hblank =>
    cases h
    refine ⟨[], rfl, .nil, fun d hd => ?_⟩
    obtain rfl : c = d := by simpa [hrest] using hd
    simpa using hblank
  | case7 newline cur hrest =>
    cases h
    exact ⟨[], rfl, .nil, fun d hd => by simp [hrest] at hd⟩

theorem skipTrivia_char (hline : ∀ tail, c = '/' → cs = '/' :: tail → False)
    (hblock : ∀ tail, c = '/' → cs = '*' :: tail → False) (newline : Bool) (pos : Nat) :
    skipTrivia newline ⟨pos, c :: cs⟩ =
      if isLineBreak c then skipTrivia true ⟨pos + c.utf8Size, cs⟩
      else if isBlank c || c == '\ufeff' then skipTrivia newline ⟨pos + c.utf8Size, cs⟩
      else .clear newline ⟨pos, c :: cs⟩ := by
  conv => lhs; rw [skipTrivia]
  split <;> rename_i heq
  · obtain ⟨rfl, rfl⟩ := List.cons.inj heq
    exact (hline _ rfl rfl).elim
  · obtain ⟨rfl, rfl⟩ := List.cons.inj heq
    exact (hblock _ rfl rfl).elim
  · obtain ⟨rfl, rfl⟩ := List.cons.inj heq
    rfl
  · cases heq

theorem skipTrivia_blank (hc : isBlank c = true ∨ c = '\ufeff') (newline : Bool) (pos : Nat)
    (rest : List Char) :
    skipTrivia newline ⟨pos, c :: rest⟩ =
      skipTrivia (newline || isLineBreak c) ⟨pos + c.utf8Size, rest⟩ := by
  have hslash : c ≠ '/' := by
    rintro rfl
    revert hc
    decide
  have hblank : (isBlank c || c == '\ufeff') = true := by simpa using hc
  rw [skipTrivia_char (fun _ h => absurd h hslash) (fun _ h => absurd h hslash)]
  by_cases hb : isLineBreak c = true <;> simp [hb, hblank]

theorem skipTrivia_line {body rest : List Char} (hbody : ∀ d ∈ body, isLineBreak d = false)
    (hrest : ∀ c, rest.head? = some c → isLineBreak c = true) (newline : Bool) (pos : Nat) :
    skipTrivia newline ⟨pos, '/' :: '/' :: (body ++ rest)⟩ =
      skipTrivia newline ⟨pos + byteLength ('/' :: '/' :: body), rest⟩ := by
  have hspan := span_append (p := (!isLineBreak ·)) (by simpa using hbody) (by simpa using hrest)
    (pos + 2)
  rw [skipTrivia]
  simp only [hspan]
  have hslash : '/'.utf8Size = 1 := rfl
  rw [show pos + 2 + byteLength body = pos + byteLength ('/' :: '/' :: body) by
    simp only [byteLength_cons, hslash]; omega]

/-- **A text of blanks and complete comments is stepped over.** Where its last comment has no line
break, one has to follow, or nothing. -/
theorem skipTrivia_append {last : Bool} {text rest : List Char} (h : Blanks last text)
    (hrest : last = true → ∀ c, rest.head? = some c → isLineBreak c = true) (newline : Bool)
    (pos : Nat) :
    ∃ newline', skipTrivia newline ⟨pos, text ++ rest⟩ =
      skipTrivia newline' ⟨pos + byteLength text, rest⟩ := by
  induction h generalizing newline pos with
  | nil => exact ⟨newline, rfl⟩
  | @blank c cs hc _ ih =>
    obtain ⟨newline', hread⟩ := ih (newline || isLineBreak c) (pos + c.utf8Size)
    refine ⟨newline', ?_⟩
    rw [List.cons_append, skipTrivia_blank hc, hread, byteLength_cons, Nat.add_assoc]
  | @line body c cs hbody hc _ ih =>
    obtain ⟨newline', hread⟩ := ih newline (pos + byteLength ('/' :: '/' :: body))
    refine ⟨newline', ?_⟩
    have hstop : ∀ d, (c :: cs ++ rest).head? = some d → isLineBreak d = true := by
      intro d hd
      rwa [← Option.some.inj hd]
    rw [List.cons_append, List.cons_append, List.append_assoc, skipTrivia_line hbody hstop, hread]
    simp [Nat.add_assoc]
  | @lastLine body hlast hbody =>
    exact ⟨newline, skipTrivia_line hbody (hrest hlast) newline pos⟩
  | @block body cs hinfix _ ih =>
    obtain ⟨nl, hcomment⟩ := blockComment_append hinfix newline (pos + 2) (cs ++ rest)
    obtain ⟨newline', hread⟩ := ih nl (pos + 2 + byteLength body + 2)
    refine ⟨newline', ?_⟩
    have hsize : pos + 2 + byteLength body + 2 + byteLength cs =
        pos + byteLength ('/' :: '*' :: (body ++ '*' :: '/' :: cs)) := by
      have h1 : '/'.utf8Size = 1 := rfl
      have h2 : '*'.utf8Size = 1 := rfl
      simp only [byteLength_cons, byteLength_append]
      omega
    rw [← hsize, ← hread, List.cons_append, List.cons_append, List.append_assoc, List.cons_append,
      List.cons_append, skipTrivia]
    simp only [hcomment, if_true]

end ModuleForge.Token
