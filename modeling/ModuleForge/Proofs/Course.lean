import ModuleForge.Proofs.ItemShapes
import ModuleForge.Proofs.Passages

/-!
# How a source is read around its module items

A module is read as tokens outside of items and the tokens of the items in turn. No item starts among
the tokens outside, and none would if they stood deeper in brackets.

- `itemFree`: no module item starts among tokens of some kinds.
- `itemsFrom_append`: tokens among which none starts are passed.
- `Stands`: a reader stands at a place in the list of the tokens.
- `Course`: the statements of a module as they are read.
- `parse_course`: every module that can be read has such a course.
-/

namespace ModuleForge.Grammar

open Token (Kind Reader Runs nextToken tokensFrom Cursor)
open Tokens Text

variable {k : Kind} {ks : List Kind} {d : Nat} {s : Tokens}

/-! ## Kinds among which no item starts -/

/-- A token of the kind `k` starts a module item before one of the kind `next`. -/
def opensItem (k : Kind) (next : Option Kind) : Bool :=
  match k with
  | .kwImport => next != some .lparen && next != some .dot
  | .kwExport => true
  | _ => false

/-- **No module item starts** among tokens of these kinds, of which the first is `depth` brackets
deep. -/
def itemFree : Nat → List Kind → Bool
  | _, [] => true
  | depth, k :: ks => !(depth == 0 && opensItem k ks.head?) && itemFree (depthAfter depth k) ks

theorem itemFree_cons {depth : Nat} :
    itemFree depth (k :: ks) = true ↔
      (depth = 0 → opensItem k ks.head? = false) ∧ itemFree (depthAfter depth k) ks = true := by
  simp [itemFree, imp_iff_not_or]

theorem depthAfter_mono {d' : Nat} (h : d ≤ d') (k : Kind) : depthAfter d k ≤ depthAfter d' k := by
  unfold depthAfter
  split
  · omega
  split <;> omega

theorem itemFree_mono {d' : Nat} (h : itemFree d ks = true) (hle : d ≤ d') :
    itemFree d' ks = true := by
  induction ks generalizing d d' with
  | nil => rfl
  | cons k ks ih =>
    obtain ⟨hk, hks⟩ := itemFree_cons.1 h
    exact itemFree_cons.2 ⟨fun hzero => hk (by omega), ih hks (depthAfter_mono hle k)⟩

/-- Where nothing is known to follow, an item is taken to start. -/
theorem opensItem_none (h : opensItem k none = false) (next : Option Kind) :
    opensItem k next = false := by
  cases k <;> first | rfl | cases h

theorem opensItem_eq {next : Kind} (hparen : next ≠ .lparen) (hdot : next ≠ .dot) :
    opensItem k (some next) = opensItem k none := by
  have hparen' : (some next != some Kind.lparen) = true := by simpa using hparen
  have hdot' : (some next != some Kind.dot) = true := by simpa using hdot
  cases k with
  | kwImport => rw [opensItem, hparen', hdot']; rfl
  | _ => rfl

theorem itemFree_of_forall (h : ∀ k ∈ ks, k ≠ .kwImport ∧ k ≠ .kwExport) (d : Nat) :
    itemFree d ks = true := by
  induction ks generalizing d with
  | nil => rfl
  | cons k ks ih =>
    obtain ⟨hk, hks⟩ := List.forall_mem_cons.1 h
    refine itemFree_cons.2 ⟨fun _ => ?_, ih hks _⟩
    cases k <;> first | rfl | exact absurd rfl hk.1 | exact absurd rfl hk.2

theorem itemFree_of_eof (h : itemFree d (ks ++ [.eof]) = true) : itemFree d ks = true := by
  induction ks generalizing d with
  | nil => rfl
  | cons k ks ih =>
    obtain ⟨hk, hks⟩ := itemFree_cons.1 h
    refine itemFree_cons.2 ⟨fun hzero => ?_, ih hks⟩
    have hk := hk hzero
    cases ks with
    | nil => exact (opensItem_eq (by decide) (by decide)).symm.trans hk
    | cons => exact hk

/-- A name may be put behind tokens that do not end with `import`. -/
theorem itemFree_insert {ls : List Kind} (h : itemFree d (ks ++ ls) = true)
    (hlast : ks.getLast? ≠ some .kwImport) : itemFree d (ks ++ .identifier :: ls) = true := by
  induction ks generalizing d with
  | nil => exact itemFree_cons.2 ⟨fun _ => rfl, h⟩
  | cons k ks ih =>
    obtain ⟨hk, hks⟩ := itemFree_cons.1 h
    cases ks with
    | nil =>
      refine itemFree_cons.2 ⟨fun hzero => ?_, itemFree_cons.2 ⟨fun _ => rfl, hks⟩⟩
      have hk := hk hzero
      cases k <;> first | rfl | exact absurd rfl hlast | cases hk
    | cons k' ks =>
      refine itemFree_cons.2 ⟨hk, ih hks ?_⟩
      rwa [List.getLast?_cons_cons] at hlast

theorem atModuleItem_eq : atModuleItem s = opensItem s.current.kind (s.kindAt? 1) := by
  cases hk : s.current.kind <;> simp [atModuleItem, opensItem, hk]

theorem exists_rest_of_atEnd (h : s.atEnd = false) :
    ∃ t rest, s.rest = t :: rest ∧ t.kind ≠ .eof := by
  cases hrest : s.rest with
  | nil => simp [atEnd, current, hrest] at h
  | cons t rest => exact ⟨t, rest, rfl, by simpa [atEnd, current, hrest] using h⟩

theorem kindAt?_one {t : Token} {rest : List Token} (h : s.rest = t :: rest) :
    s.kindAt? 1 = (rest.map (·.kind)).head? := by
  cases rest <;> simp [kindAt?, h]

/-- **Tokens among which no item starts are passed.** -/
theorem itemsFrom_append {depth : Nat} {us rest : List Token} {before : Option Token}
    (h : itemFree depth (us.map (·.kind)) = true) :
    itemsFrom depth ⟨before, us ++ rest⟩ = [] ∨
      ∃ depth' before', itemsFrom depth ⟨before, us ++ rest⟩ = itemsFrom depth' ⟨before', rest⟩ := by
  induction us generalizing depth before with
  | nil => exact .inr ⟨depth, before, rfl⟩
  | cons t us ih =>
    obtain ⟨hk, hks⟩ := itemFree_cons.1 h
    have hrest : Tokens.rest ⟨before, t :: us ++ rest⟩ = t :: (us ++ rest) := rfl
    rw [itemsFrom_eq]
    split
    · exact .inl rfl
    rename_i hend
    have ht : t.kind ≠ .eof := by
      rw [atEnd, current_of_rest hrest] at hend
      simpa using hend
    have hno : (depth == 0 && atModuleItem ⟨before, t :: us ++ rest⟩) = false := by
      rw [atModuleItem_eq, current_of_rest hrest, kindAt?_one hrest, Bool.and_eq_false_imp]
      intro hzero
      have hk := hk (by simpa using hzero)
      cases us with
      | nil => exact opensItem_none hk _
      | cons u us => exact hk
    rw [hno, if_neg (by simp), current_of_rest hrest, advance_of_rest hrest ht]
    exact ih hks

/-! ## Readers and places -/

/-- **The reader stands at the place** in the tokens of the source, none of which is an error. -/
structure Stands (src : List Char) (s : Tokens) (r : Reader) : Prop where
  rest : s.rest = tokensFrom r
  clean : ∀ t ∈ tokensFrom r, t.kind ≠ .error
  reaches : Cursor.Reaches ⟨0, src⟩ r.cursor
  lastKind : s.lastKind = r.last
  lastEnd : s.before ≠ none → s.lastEnd = r.cursor.pos

section
variable {src : List Char} {s s' : Tokens} {r : Reader}

theorem Stands.current (h : Stands src s r) : s.current = (nextToken r).1 := by
  have hrest := h.rest
  rw [Token.tokensFrom_eq] at hrest
  split at hrest
  · exact current_of_rest hrest
  · exact current_of_rest hrest

theorem Stands.step {t : Token} {rest : List Token} (h : Stands src s r) (hrest : s.rest = t :: rest)
    (ht : t.kind ≠ .eof) :
    t = (nextToken r).1 ∧ Runs r [t] (nextToken r).2 ∧ Stands src ⟨some t, rest⟩ (nextToken r).2 := by
  obtain ⟨rfl, htail⟩ := Token.tokensFrom_cons (h.rest.symm.trans hrest)
  have herror := h.clean _ (Token.nextToken_mem r)
  refine ⟨rfl, .cons herror ht (.nil _), (htail ht).symm, fun t hmem => ?_, ?_, ?_, fun _ => ?_⟩
  · exact h.clean t (Token.mem_tokensFrom_of_next ht hmem)
  · exact h.reaches.trans (Token.nextToken_reads r).reaches
  · exact (Token.nextToken_last herror).symm
  · obtain ⟨start, -, hcovers⟩ := Token.nextToken_covers herror ht
    exact congrArg Span.stop hcovers.span

/-- **Where tokens are reached, a reader stands.** -/
theorem Stands.runs (h : Stands src s r) (hr : s.Reaches s') :
    ∃ ts r', Runs r ts r' ∧ Stands src s' r' ∧ ts.length + s'.left = s.left := by
  induction hr generalizing r with
  | refl s => exact ⟨[], r, .nil r, h, Nat.zero_add _⟩
  | @step s s' t rest hrest ht _ ih =>
    obtain ⟨-, hruns, hstands⟩ := h.step hrest ht
    obtain ⟨ts, r', hruns', hstands', hlength⟩ := ih hstands
    refine ⟨t :: ts, r', hruns.trans hruns', hstands', ?_⟩
    simp only [List.length_cons, left, hrest] at hlength ⊢
    omega

theorem before_ne_none (hr : s.Reaches s') (hlt : s'.left < s.left) : s'.before ≠ none := by
  have hkeep {s s' : Tokens} (hr : s.Reaches s') (hs : s.before ≠ none) : s'.before ≠ none := by
    induction hr with
    | refl => exact hs
    | step _ _ _ ih => exact ih (by simp)
  cases hr with
  | refl => exact absurd hlt (Nat.lt_irrefl _)
  | step _ _ hr => exact hkeep hr (by simp)

theorem Stands.kindAt?_one (h : Stands src s r) (ht : (nextToken r).1.kind ≠ .eof) :
    s.kindAt? 1 = some (nextToken (nextToken r).2).1.kind := by
  have hrest := h.rest
  rw [Token.tokensFrom_eq, if_neg ht] at hrest
  rw [Grammar.kindAt?_one hrest, Token.tokensFrom_eq]
  split <;> rfl

/-- What is found behind tokens outside of items: the end, or an item. -/
inductive Next (src : List Char) (depth : Nat) (s : Tokens) (r : Reader) : Prop
  | done : itemsFrom depth s = [] → (nextToken r).1.kind = .eof → Next src depth s r
  | item {s1 s2 : Tokens} {st : Statement} : Stands src s1 r → s.Reaches s1 →
      atModuleItem s1 = true → moduleItem s1 = .ok st s2 → s2.left < s1.left →
      itemsFrom depth s = .found s1.current.span.start st s2.lastEnd :: itemsFrom 0 s2 →
      Next src depth s r

theorem opensItem_eq_true {next : Option Kind} (h : opensItem k next = true) :
    k = .kwImport ∨ k = .kwExport := by
  cases k <;> simp_all [opensItem]

theorem Stands.kind_of_atModuleItem (h : Stands src s r) (hat : atModuleItem s = true) :
    (nextToken r).1.kind = .kwImport ∨ (nextToken r).1.kind = .kwExport := by
  rw [atModuleItem_eq, h.current] at hat
  exact opensItem_eq_true hat

/-- **The tokens up to the next item.** -/
theorem itemsFrom_next (depth : Nat) (s : Tokens) (h : Stands src s r)
    (hok : (itemsFrom depth s).filterMap Item.error? = []) :
    ∃ ts r', Runs r ts r' ∧ itemFree depth (ts.map (·.kind)) = true ∧ Next src depth s r' := by
  fun_induction itemsFrom depth s generalizing r with
  | case1 depth s hend =>
    refine ⟨[], r, .nil r, rfl, .done ?_ ?_⟩
    · rw [itemsFrom, dif_pos hend]
    · rw [← h.current]
      simpa [atEnd] using hend
  | case2 depth s hend hitem st s' hs item hlt =>
    obtain ⟨hzero, hat⟩ := Bool.and_eq_true_iff.1 hitem
    refine ⟨[], r, .nil r, rfl, .item h (.refl s) hat hs hlt ?_⟩
    rw [itemsFrom, dif_neg hend, if_pos hitem, hs]
    simp only [hlt, if_true]
  | case3 =>
    rename_i hs _ hlt
    exact absurd (consumes_moduleItem.2 hs) hlt
  | case4 => simp [Item.error?] at hok
  | case5 => simp [Item.error?] at hok
  | case6 depth s hend hitem hlt ih =>
    obtain ⟨t, rest, hrest, ht⟩ := exists_rest_of_atEnd (by simpa using hend)
    have hadvance := advance_of_rest hrest ht
    obtain ⟨rfl, hruns, hstands⟩ := h.step hrest ht
    rw [hadvance] at ih
    obtain ⟨ts, r', hruns', hfree, hnext⟩ := ih hstands (hadvance ▸ hok)
    have hitems : itemsFrom depth s =
        itemsFrom (depthAfter depth s.current.kind) ⟨some (nextToken r).1, rest⟩ := by
      rw [itemsFrom, dif_neg hend, if_neg hitem, hadvance]
    refine ⟨_ :: ts, r', hruns.trans hruns', ?_, ?_⟩
    · rw [current_of_rest hrest] at hfree
      refine itemFree_cons.2 ⟨fun hzero => ?_, hfree⟩
      rw [atModuleItem_eq, h.current, h.kindAt?_one ht, hzero] at hitem
      cases hruns' with
      | nil =>
        -- What follows is the end or an item, which is no reason for `import` not to start one.
        have hkind : (nextToken (nextToken r).2).1.kind ≠ .lparen ∧
            (nextToken (nextToken r).2).1.kind ≠ .dot := by
          cases hnext with
          | done _ hk => simp [hk]
          | item hs1 _ hat => rcases hs1.kind_of_atModuleItem hat with hk | hk <;> simp [hk]
        rw [opensItem_eq hkind.1 hkind.2] at hitem
        simpa using hitem
      | cons => simpa using hitem
    · cases hnext with
      | done hnone hk => exact .done (hitems.trans hnone) hk
      | item hs1 hreach hat hs hlt' hfound =>
        exact .item hs1 ((reaches_of_rest hrest ht).trans hreach) hat hs hlt' (hitems.trans hfound)

/-! ## The course of a module -/

/-- **How the statements of a module are read** from a reader on; `lo` is where the text before the
next item starts. -/
inductive Course (src : List Char) : Nat → Reader → List Statement → Prop
  | done {lo : Nat} {s : Tokens} {r r' : Reader} {ts : List Token} : Stands src s r →
      Runs r ts r' → itemFree 0 (ts.map (·.kind)) = true → (nextToken r').1.kind = .eof →
      Course src lo r (gap lo (byteLength src))
  | item {lo : Nat} {s s1 s2 : Tokens} {r r1 r2 : Reader} {ts : List Token} {st : Statement}
      {rest : List Statement} : Stands src s r → Runs r ts r1 →
      itemFree 0 (ts.map (·.kind)) = true → atModuleItem s1 = true →
      Stands src s1 r1 → moduleItem s1 = .ok st s2 → Stands src s2 r2 →
      st.sourceSpan? = some ⟨s1.current.span.start, r2.cursor.pos⟩ →
      Course src r2.cursor.pos r2 rest →
      Course src lo r (gap lo s1.current.span.start ++ st :: rest)

theorem course_of_itemsFrom (s : Tokens) {r : Reader} (h : Stands src s r) (hl : s.Laid src)
    (hok : (itemsFrom 0 s).filterMap Item.error? = []) (lo : Nat) :
    Course src lo r (withGaps (byteLength src) lo (itemsFrom 0 s)) := by
  obtain ⟨ts, r1, hruns, hfree, hnext⟩ := itemsFrom_next 0 s h hok
  cases hnext with
  | done hnone hk =>
    rw [hnone]
    exact .done h hruns hfree hk
  | @item s1 s2 st hs1 hreach hat hitem hlt hfound =>
    obtain ⟨us, r2, -, hs2, hlength⟩ := hs1.runs (consumes_moduleItem.1.ok hitem)
    have hlt' : s2.left < s.left := Nat.lt_of_lt_of_le hlt hreach.left_le
    have hok' : (itemsFrom 0 s2).filterMap Item.error? = [] := by
      rw [hfound] at hok
      simpa [Item.error?] using hok
    have hlast := hs2.lastEnd (before_ne_none (consumes_moduleItem.1.ok hitem) hlt)
    have hl1 := hl.of_reaches hreach
    have hspan := (moduleItem_placed hl1 hitem).1
    rw [hlast] at hspan
    rw [hfound, withGaps, hlast]
    exact .item h hruns hfree hat hs1 hitem hs2 hspan
      (course_of_itemsFrom s2 hs2 (hl1.of_reaches (consumes_moduleItem.1.ok hitem)) hok' _)
termination_by s.left

/-- **Every module that can be read has a course.** -/
theorem parse_course {source : String} {p : Program} (h : parse source = .ok p) :
    Course source.toList 0 ⟨none, Token.skipHashbang ⟨0, source.toList⟩⟩ p.statements := by
  obtain ⟨hok, hlists⟩ := parse_items h
  have hstands : Stands source.toList ⟨none, Token.scan source⟩
      ⟨none, Token.skipHashbang ⟨0, source.toList⟩⟩ :=
    ⟨rfl, ne_error_of_parse h, Token.skipHashbang_reaches _, rfl, by simp⟩
  rw [hlists.statements]
  exact course_of_itemsFrom _ hstands (.scan source) hok 0

end

end ModuleForge.Grammar
