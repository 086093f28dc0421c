import ModuleForge.Proofs.FreshNames
import ModuleForge.Proofs.Lossless
import ModuleForge.Proofs.Slices
import ModuleForge.Task.Transform

/-!
# Nothing is read out of range

Every text is read to its end, and no step of the way from a text to its CommonJS form takes a slice
that does not exist, looks at a token or a statement that is not there, or counts below zero.

- `Token.SafelyRead`, `scan_safelyRead`: the tokens of a source.
- `Grammar.SafelyParsed`, `parseTokens_safelyParsed`: the program of any list of tokens.
- `CommonJs.SafelyLowered`, `lower_safelyLowered`: the CommonJS form of a program.
- `Task.transform_safe`: hence the transformation of a module, which never crashes.
-/

namespace ModuleForge

open Text

/-! ## Tokens -/

namespace Token

/-- The tokens of a source are cut out of it, and reading them ends by reaching its end. -/
structure SafelyRead (source : String) : Prop where
  /-- All slices exist, also those of the tokens inside of templates. -/
  slices : ∀ t ∈ scan source, Formed source.toList t
  /-- The end marker stands at the end of the source, and only there. -/
  ends : ∃ ts t, scan source = ts ++ [t] ∧ (∀ u ∈ ts, u.kind ≠ .eof) ∧ t.kind = .eof ∧
    t.span = ⟨byteLength source.toList, byteLength source.toList⟩
  /-- Every token but the end marker takes a part of the text. -/
  advances : ∀ r : Reader, (nextToken r).1.kind ≠ .eof → (nextToken r).2.left < r.left
  /-- The count of open braces is taken from only where it is not zero. -/
  braces : ∀ (start depth : Nat) (r : Reader), substitution start depth r =
    substitutionFrom start depth (nextToken r).1 (nextToken r).2

theorem tokensFrom_ends {src : List Char} (r : Reader) (hr : Cursor.Reaches ⟨0, src⟩ r.cursor) :
    ∃ ts t, tokensFrom r = ts ++ [t] ∧ (∀ u ∈ ts, u.kind ≠ .eof) ∧ t.kind = .eof ∧
      t.span = ⟨byteLength src, byteLength src⟩ := by
  have hreads := nextToken_reads r
  rw [tokensFrom_eq]
  split
  · rename_i heof
    refine ⟨[], _, rfl, by simp, heof, ?_⟩
    cases hreads with
    | eof _ hs hrest hspan => rw [hspan, pos_of_rest_nil (hr.trans (reaches_of_clear hs)) hrest]
    | error hk _ => rw [heof] at hk; cases hk
    | token _ _ _ hc => exact absurd heof hc.kind
  · rename_i heof
    have hlt := nextToken_left_lt rfl heof
    obtain ⟨ts, t, hts, hne, hend⟩ := tokensFrom_ends (nextToken r).2 (hr.trans hreads.reaches)
    exact ⟨_ :: ts, t, by rw [hts]; rfl, List.forall_mem_cons.2 ⟨heof, hne⟩, hend⟩
termination_by r.left

theorem scan_safelyRead (source : String) : SafelyRead source where
  slices := scan_formed source
  ends := tokensFrom_ends _ (skipHashbang_reaches ⟨0, source.toList⟩)
  advances _ h := nextToken_left_lt rfl h
  braces := substitution_eq

end Token

/-! ## Programs -/

namespace Grammar

open Tokens

/-- The loops of the grammar go on to what ends them: none is left because a round has taken no
token. -/
structure RoundsAdvance : Prop where
  object : ∀ s, ¬ (s.check .rbrace || s.atEnd) = true → objectPattern s = objectRound s
  array : ∀ s, ¬ (s.check .rbracket || s.atEnd) = true → ¬ s.check .comma = true →
    arrayPattern s = arrayRound (s.check .ellipsis) (s.advanceIf .ellipsis)
  declarators : ∀ s, declarators s = declaratorsRound s
  imports : ∀ s, ¬ (s.check .rbrace || s.atEnd) = true →
    elementsToBrace importSpecifier s = bracesRound importSpecifier s
  exports : ∀ s, ¬ (s.check .rbrace || s.atEnd) = true →
    elementsToBrace exportSpecifier s = bracesRound exportSpecifier s

theorem roundsAdvance : RoundsAdvance where
  object _ h := objectPattern_round h
  array _ h hcomma := arrayPattern_round h hcomma
  declarators := declarators_round
  imports _ h := elementsToBrace_round shortens_importSpecifier h
  exports _ h := elementsToBrace_round shortens_exportSpecifier h

/-- A list of tokens, whether it ends with an end marker or not, is read to its end. -/
structure SafelyParsed (tokens : List Token) : Prop where
  /-- Wherever reading comes to, there is a next token. -/
  current : ∀ s, Reaches ⟨none, withEnd tokens⟩ s → ∃ t rest, s.rest = t :: rest
  /-- A module item ends farther on in the list. -/
  item : ∀ s, s.atEnd = false → ∀ st s', moduleItem s = .ok st s' →
    s.Reaches s' ∧ s'.left < s.left
  /-- Behind a fault, reading goes on farther on in the list. -/
  fault : ∀ s, s.atEnd = false → ∀ e s', moduleItem s = .error e s' →
    s.Reaches (resume s') ∧ (resume s').left < s.left
  rounds : RoundsAdvance
  /-- The answer is a program all of whose statements are there, or an error and perhaps more. -/
  answer : (∃ p, parseTokens tokens = .ok p ∧ ∀ id ∈ p.body, id < p.nodes.size) ∨
    ∃ e es, parseTokens tokens = .error (e :: es)

theorem withEnd_ends (tokens : List Token) : ∃ ts t, withEnd tokens = ts ++ [t] ∧ t.kind = .eof := by
  unfold withEnd
  split
  · rename_i t ht
    split
    · rename_i heof
      obtain ⟨ts, rfl⟩ := List.getLast?_eq_some_iff.1 ht
      exact ⟨ts, t, rfl, by simpa using heof⟩
    · exact ⟨tokens, _, rfl, rfl⟩
  · exact ⟨[], _, rfl, rfl⟩

/-- The end marker is never passed, so that it is left over everywhere. -/
theorem Tokens.Reaches.ends {s s' : Tokens} (h : s.Reaches s') {ts : List Token} {t : Token}
    (hs : s.rest = ts ++ [t]) (ht : t.kind = .eof) : ∃ ts', s'.rest = ts' ++ [t] := by
  induction h generalizing ts with
  | refl => exact ⟨ts, hs⟩
  | step hrest hne _ ih =>
    cases ts with
    | nil =>
      obtain ⟨rfl, -⟩ := List.cons.inj (hrest.symm.trans hs)
      exact absurd ht hne
    | cons u us =>
      obtain ⟨-, hus⟩ := List.cons.inj (hrest.symm.trans hs)
      exact ih hus

theorem exists_current {tokens : List Token} {s : Tokens}
    (h : Reaches ⟨none, withEnd tokens⟩ s) : ∃ t rest, s.rest = t :: rest := by
  obtain ⟨ts, t, hts, ht⟩ := withEnd_ends tokens
  obtain ⟨ts', hs⟩ := h.ends hts ht
  cases ts' with
  | nil => exact ⟨t, [], hs⟩
  | cons u us => exact ⟨u, us ++ [t], hs⟩

theorem parseTokens_answer (tokens : List Token) :
    (∃ p, parseTokens tokens = .ok p ∧ ∀ id ∈ p.body, id < p.nodes.size) ∨
      ∃ e es, parseTokens tokens = .error (e :: es) := by
  have hcons {es : List ParseError} (h : ¬ es.isEmpty = true) : ∃ e es', es = e :: es' := by
    cases es with
    | nil => exact absurd rfl h
    | cons e es' => exact ⟨e, es', rfl⟩
  simp only [parseTokens]
  split
  · split
    · exact .inl ⟨_, rfl, fun _ => (assemble_lists (Program.lists_empty _) _ 0 _).lt_size⟩
    · rename_i h
      obtain ⟨e, es, h⟩ := hcons h
      exact .inr ⟨e, es, by rw [h]⟩
  · rename_i h
    obtain ⟨e, es, h⟩ := hcons h
    exact .inr ⟨e, es, by rw [h]⟩

theorem parseTokens_safelyParsed (tokens : List Token) : SafelyParsed tokens where
  current _ h := exists_current h
  item _ _ _ _ h := ⟨consumes_moduleItem.1.ok h, consumes_moduleItem.2 h⟩
  fault _ hend _ s' h :=
    have hr := (consumes_moduleItem.1.error h).reaches
    ⟨hr.trans (reaches_resume s'), resume_left_lt hend hr⟩
  rounds := roundsAdvance
  answer := parseTokens_answer tokens

end Grammar

/-! ## Brackets -/

namespace CommonJs

namespace Reassignment

/-- `partnersFrom` that has no answer where a bracket would be noted out of range. -/
def partnersFrom? (index : Nat) (opened : List Nat) (acc : Array (Option Nat)) :
    List Token → Option (Array (Option Nat))
  | [] => some acc
  | t :: rest =>
    if t.kind.isOpen then partnersFrom? (index + 1) (index :: opened) acc rest
    else if t.kind.isClose then
      match opened with
      | [] => partnersFrom? (index + 1) [] acc rest
      | o :: opened =>
        if h : o < acc.size then partnersFrom? (index + 1) opened (acc.set o (some index) h) rest
        else none
    else partnersFrom? (index + 1) opened acc rest

/-- The brackets that are open stand before the place that the walk has come to. -/
theorem partnersFrom?_eq {index : Nat} {opened : List Nat} {acc : Array (Option Nat)}
    {ts : List Token} (hopened : ∀ o ∈ opened, o < index) (hsize : index + ts.length ≤ acc.size) :
    partnersFrom? index opened acc ts = some (partnersFrom index opened acc ts) := by
  induction ts generalizing index opened acc with
  | nil => rfl
  | cons t rest ih =>
    simp only [List.length_cons] at hsize
    have hlater : ∀ o ∈ opened, o < index + 1 := fun o ho => Nat.lt_succ_of_lt (hopened o ho)
    unfold partnersFrom? partnersFrom
    split
    · exact ih (List.forall_mem_cons.2 ⟨Nat.lt_succ_self _, hlater⟩) (by omega)
    split
    · cases opened with
      | nil => exact ih (by simp) (by omega)
      | cons o opened =>
        obtain ⟨ho, hopened⟩ := List.forall_mem_cons.1 hopened
        have hlt : o < acc.size := by omega
        simp only [dif_pos hlt, Array.setIfInBounds]
        exact ih (fun o' ho' => Nat.lt_succ_of_lt (hopened o' ho')) (by simpa using by omega)
    · exact ih hlater (by omega)

theorem partnersFrom_lt {index : Nat} {opened : List Nat} {acc : Array (Option Nat)}
    {ts : List Token} (hopened : ∀ o ∈ opened, o < index)
    (hacc : ∀ i j, acc[i]? = some (some j) → i < j ∧ j < index) {i j : Nat}
    (h : (partnersFrom index opened acc ts)[i]? = some (some j)) :
    i < j ∧ j < index + ts.length := by
  induction ts generalizing index opened acc with
  | nil => exact hacc i j h
  | cons t rest ih =>
    have hlater : ∀ o ∈ opened, o < index + 1 := fun o ho => Nat.lt_succ_of_lt (hopened o ho)
    have hacc' : ∀ i j, acc[i]? = some (some j) → i < j ∧ j < index + 1 := fun i j hij =>
      (hacc i j hij).imp id Nat.lt_succ_of_lt
    rw [List.length_cons, Nat.add_comm rest.length, ← Nat.add_assoc]
    unfold partnersFrom at h
    split at h
    · exact ih (List.forall_mem_cons.2 ⟨Nat.lt_succ_self _, hlater⟩) hacc' h
    split at h
    · cases opened with
      | nil => exact ih (by simp) hacc' h
      | cons o opened =>
        obtain ⟨ho, hopened⟩ := List.forall_mem_cons.1 hopened
        refine ih (fun o' ho' => Nat.lt_succ_of_lt (hopened o' ho')) (fun i' j' hij => ?_) h
        rw [Array.getElem?_setIfInBounds] at hij
        split at hij
        · split at hij
          · obtain rfl : index = j' := by simpa using hij
            omega
          · cases hij
        · exact hacc' i' j' hij
    · exact ih hlater hacc' h

/-- The bracket structure of tokens is noted in range, and leads forward. -/
structure SafelyPaired (tokens : Array Token) : Prop where
  noted : partnersFrom? 0 [] (Array.replicate tokens.size none) tokens.toList =
    some (partners tokens)
  forward : ∀ i j, (partners tokens)[i]? = some (some j) → i < j ∧ j < tokens.size

theorem partners_safelyPaired (tokens : Array Token) : SafelyPaired tokens where
  noted := partnersFrom?_eq (by simp) (by simp)
  forward i j h := by
    have hnone : ∀ i j, (Array.replicate tokens.size (none : Option Nat))[i]? = some (some j) →
        i < j ∧ j < 0 := by
      intro i j hij
      rw [Array.getElem?_replicate] at hij
      split at hij <;> cases hij
    simpa using partnersFrom_lt (by simp) hnone h

theorem lt_size_of_mem_targets {tokens : Array Token} {name : String} {i : Nat}
    (h : i ∈ targets tokens name) : i < tokens.size := by
  obtain ⟨t, ht, -⟩ := isWord_of_mem_targetsFrom h
  exact (Array.getElem?_eq_some_iff.1 ht).1

end Reassignment

/-! ## CommonJS forms -/

/-- The walk over the first statements leaves their translation behind and stands in front of the
others. -/
theorem lowerFrom_prefix {s : Stage} {done front back : List Statement}
    (h : s.Between done (front ++ back)) (hk : ∀ st ∈ front, st.KeywordInside) :
    (lowerFrom front.length s).Between (done ++ (translateAll s.walk.carry front).1) back := by
  induction front generalizing s done with
  | nil => simpa [translateAll, lowerFrom] using h
  | cons st front ih =>
    obtain ⟨hst, hfront⟩ := List.forall_mem_cons.1 hk
    have hget : s.program.get? s.index = some st := by rw [h.index]; exact h.lists.get?
    have hstep := lowerStatement_lowers hst s
    have hb := ih (hstep.between h) hfront
    rw [hstep.carry] at hb
    simpa only [List.length_cons, lowerFrom, hget, translateAll, List.append_assoc] using hb

/-- The CommonJS form of the program of a source is made of what is there. -/
structure SafelyLowered (source : String) (p : Program) : Prop where
  /-- Before each step, the walk stands at the statement that is next in the program. -/
  walk : ∀ names n, n < p.length →
    let s := lowerFrom n ⟨{ names }, p, 0⟩
    s.index < s.program.length ∧ s.program.get? s.index = p.get? n
  /-- The search for a name ends with one that is free. -/
  fresh : ∀ (names : Names) base, names.fresh base ∉ names.used
  brackets : Reassignment.SafelyPaired (Token.scan source).toArray
  /-- The assignments that are changed are tokens of the source. -/
  targets : ∀ name, ∀ i ∈ Reassignment.targets (Token.scan source).toArray name,
    i < (Token.scan source).length
  /-- The statements of the form are there. -/
  body : ∀ id ∈ (lower (Token.scan source) p).body, id < (lower (Token.scan source) p).nodes.size
  /-- All slices that its text is made of exist. -/
  text : ∃ text, (lower (Token.scan source) p).generate? source.toList = some text

theorem walk_safe {source : String} {p : Program} (h : Grammar.parse source = .ok p) (names : Names)
    {n : Nat} (hn : n < p.length) :
    let s := lowerFrom n ⟨{ names }, p, 0⟩
    s.index < s.program.length ∧ s.program.get? s.index = p.get? n := by
  obtain ⟨ss, hp, hc⟩ := Grammar.parse_covers h
  have hlt : n < ss.length := hp.length ▸ hn
  have hsplit : ss.take n ++ ss[n] :: ss.drop (n + 1) = ss := by simp
  have hlen : (ss.take n).length = n := List.length_take_of_le (Nat.le_of_lt hlt)
  have h0 : Stage.Between ⟨{ names }, p, 0⟩ [] (ss.take n ++ ss[n] :: ss.drop (n + 1)) :=
    ⟨by simpa using hp, rfl⟩
  have hb := lowerFrom_prefix h0 fun st hst => hc.keywordInside st (List.mem_of_mem_take hst)
  rw [hlen] at hb
  have hget : p.get? n = some ss[n] := by
    have hp' : p.Lists (ss.take n ++ ss[n] :: ss.drop (n + 1)) := hsplit.symm ▸ hp
    simpa only [hlen] using hp'.get?
  refine ⟨?_, ?_⟩
  · simp only [hb.index, hb.lists.length, List.length_append, List.length_cons]
    omega
  · rw [hget, hb.index]
    exact hb.lists.get?

theorem lower_safelyLowered {source : String} {p : Program} (h : Grammar.parse source = .ok p) :
    SafelyLowered source p where
  walk names _ hn := walk_safe h names hn
  fresh := Names.fresh_not_used
  brackets := Reassignment.partners_safelyPaired _
  targets name i hi := by simpa using Reassignment.lt_size_of_mem_targets hi
  body id hid := by
    obtain ⟨ss, hp, hc⟩ := Grammar.parse_covers h
    obtain ⟨lowered, hl, -⟩ := lower_lists (P := fun _ => True) hp hc.keywordInside
      (Token.scan source) trivial fun _ _ _ _ _ => trivial
    exact hl.lt_size hid
  text := generate?_lower h

theorem ofSource_answer (source : String) :
    (∃ text, ofSource source = .ok text) ∨ ∃ e, ofSource source = .error (.parse e) := by
  simp only [ofSource]
  rcases Grammar.parseTokens_answer (Token.scan source) with ⟨p, hp, -⟩ | ⟨e, es, he⟩
  · obtain ⟨text, htext⟩ := generate?_lower (show Grammar.parse source = .ok p from hp)
    exact .inl ⟨String.ofList text, by simp only [hp, htext]⟩
  · exact .inr ⟨e, by simp only [he]⟩

end CommonJs

/-! ## The transformation of a module -/

namespace Task

/-- **Every module is transformed or rejected, and nothing on the way is out of range.** The code may
be any text. Its tokens are read to the end; so is every list that starts with them; its program, if
it has one, has a CommonJS form; and what the transformation gives is read in the same way. -/
theorem transform_safe (payload : Payload) :
    Token.SafelyRead payload.code ∧
      (∀ k, Grammar.SafelyParsed ((Token.scan payload.code).take k)) ∧
      (∀ p, Grammar.parse payload.code = .ok p → CommonJs.SafelyLowered payload.code p) ∧
      ((∃ text, CommonJs.ofSource payload.code = .ok text) ∨
        ∃ e, CommonJs.ofSource payload.code = .error (.parse e)) ∧
      ((∃ output, transform payload = .output output ∧ Token.SafelyRead output.code) ∨
        ∃ message, transform payload = .rejected message) := by
  refine ⟨Token.scan_safelyRead _, fun k => Grammar.parseTokens_safelyParsed _,
    fun p hp => CommonJs.lower_safelyLowered hp, CommonJs.ofSource_answer _, ?_⟩
  unfold transform
  rcases CommonJs.ofSource_answer payload.code with ⟨text, htext⟩ | ⟨e, he⟩
  · rw [htext]
    exact .inl ⟨_, rfl, Token.scan_safelyRead _⟩
  · rw [he]
    exact .inr ⟨_, rfl⟩

end Task

end ModuleForge
