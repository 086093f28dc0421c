import ModuleForge.Proofs.Translation

/-!
# The program behind both passes

The walk gives the image of the statements of a program. Behind it, each assignment to a default
export gets an export in front of it, by an insertion of text into one statement at a time.

- `lower_listsSome`, `lower_lists`: what holds of the image and is kept by such an insertion holds
  of the statements behind both passes.
- `ofSource_eq_ok_iff`: the CommonJS form of a source is the text of that program.
-/

namespace ModuleForge.CommonJs

open Reassignment

theorem isWord_of_mem_targetsFrom {b : Brackets} {tokens : Array Token} {name : String}
    {index i : Nat} {c : Context}
    (h : i ∈ targetsFrom b tokens name index c) :
    ∃ t, tokens[i]? = some t ∧ t.isWord name = true := by
  fun_induction targetsFrom b tokens name index c with
  | case1 index c hlt t hword _ ih =>
    rcases List.mem_cons.1 h with rfl | h
    · exact ⟨t, Array.getElem?_eq_getElem hlt, (Bool.and_eq_true_iff.1 hword).1⟩
    · exact ih h
  | case2 index c hlt t hword ih => exact ih h
  | case3 => cases h

theorem identifier_of_mem_targets {tokens : Array Token} {name : String} {i : Nat} {t : Token}
    (hi : i ∈ targets tokens name) (ht : tokens[i]? = some t) :
    t.kind = .identifier ∧ t.value = name := by
  obtain ⟨u, hu, hword⟩ := isWord_of_mem_targetsFrom hi
  obtain rfl : t = u := Option.some.inj (ht.symm.trans hu)
  simpa [Token.isWord] using hword

section

variable {tokens : List Token} {P : List Statement → Prop} {p : Program}

/-- The program lists statements of which `P` holds. -/
def ListsSome (P : List Statement → Prop) (p : Program) : Prop :=
  ∃ ss, p.Lists ss ∧ P ss

theorem exportAt_listsSome {offset : Nat} (h : ListsSome P p)
    (hstep : ∀ {xs ys : List Statement} {s s' : Statement},
      s.insertText? offset exportPrefix = some s' → P (xs ++ s :: ys) → P (xs ++ s' :: ys)) :
    ListsSome P (exportAt offset p) := by
  rw [exportAt]
  cases hq : p.insertTextAt? offset exportPrefix with
  | none => exact h
  | some q =>
    obtain ⟨ss, hss, hP⟩ := h
    obtain ⟨xs, s, s', ys, rfl, hs, hq'⟩ := hss.insertTextAt hq
    exact ⟨_, hq', hstep hs hP⟩

theorem exportAssignments_listsSome {name : String} (h : ListsSome P p)
    (hstep : ∀ {xs ys : List Statement} {s s' : Statement} {t : Token} {i : Nat},
      i ∈ targets tokens.toArray name → tokens.toArray[i]? = some t →
      s.insertText? t.span.start exportPrefix = some s' → P (xs ++ s :: ys) → P (xs ++ s' :: ys)) :
    ListsSome P (exportAssignments tokens.toArray name p) := by
  refine List.foldlRecOn _ _ h fun p hp i hi => ?_
  obtain ⟨t, ht, -⟩ := isWord_of_mem_targetsFrom hi
  simp only [ht]
  exact exportAt_listsSome hp (hstep hi ht)

/-- **What holds of the image of the statements and is kept by an insertion** of an export in front
of the target of an assignment holds of the statements behind both passes. -/
theorem lower_listsSome {ss : List Statement} (hp : p.Lists ss) (hk : ∀ st ∈ ss, st.KeywordInside)
    (tokens : List Token) (himage : P (moduleImage (.ofTokens tokens) ss))
    (hstep : ∀ {xs ys : List Statement} {s s' : Statement} {t : Token} {i : Nat} {name : String},
      name ∈ ss.flatMap defaultNames → i ∈ targets tokens.toArray name →
      tokens.toArray[i]? = some t → s.insertText? t.span.start exportPrefix = some s' →
      P (xs ++ s :: ys) → P (xs ++ s' :: ys)) : ListsSome P (lower tokens p) := by
  obtain ⟨hlists, hdefaults⟩ := lowerBody_lists hp hk (.ofTokens tokens)
  have h0 : ListsSome P (lowerBody (.ofTokens tokens) p).2 := ⟨_, hlists, himage⟩
  simp only [lower, hdefaults]
  exact List.foldlRecOn _ _ h0 fun q hq name hname =>
    exportAssignments_listsSome hq (hstep hname)

/-- The same for an insertion in front of any identifier that has the name of a default export. -/
theorem lower_lists {ss : List Statement} (hp : p.Lists ss) (hk : ∀ st ∈ ss, st.KeywordInside)
    (tokens : List Token) (himage : P (moduleImage (.ofTokens tokens) ss))
    (hstep : ∀ {xs ys : List Statement} {s s' : Statement} {t : Token}, t ∈ tokens →
      t.kind = .identifier → t.value ∈ ss.flatMap defaultNames →
      s.insertText? t.span.start exportPrefix = some s' → P (xs ++ s :: ys) → P (xs ++ s' :: ys)) :
    ListsSome P (lower tokens p) := by
  refine lower_listsSome hp hk tokens himage fun {xs ys s s' t i name} hname hi ht hs hP => ?_
  obtain ⟨hkind, rfl⟩ := identifier_of_mem_targets hi ht
  exact hstep (List.mem_of_getElem? (List.getElem?_toArray ▸ ht)) hkind hname hs hP

end

theorem ofSource_eq_ok_iff {source text : String} :
    ofSource source = .ok text ↔ ∃ p, Grammar.parse source = .ok p ∧
      (lower (Token.scan source) p).generate? source.toList = some text.toList := by
  simp only [ofSource, Grammar.parse]
  cases hp : Grammar.parseTokens (Token.scan source) with
  | error es => cases es <;> simp
  | ok p =>
    cases hg : (lower (Token.scan source) p).generate? source.toList with
    | none => simp [hg]
    | some t =>
      simp only [hg, Except.ok.injEq, exists_eq_left', Option.some.injEq]
      exact ⟨fun h => by rw [← h, String.toList_ofList], fun h => by rw [h, String.ofList_toList]⟩

end ModuleForge.CommonJs
