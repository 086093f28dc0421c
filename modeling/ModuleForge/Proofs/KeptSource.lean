import ModuleForge.Proofs.Lowered

/-!
# The source that the CommonJS form keeps

Two passes put text into the fragments of a program: the walk puts a name behind the keyword of a
default declaration without name, and assignments to a default export get an export in front of
them. Neither of them loses, repeats or moves a byte of the source.

- `Fragment.insertAt?_spec`: an insertion keeps the ranges of a fragment and adds one text, in front
  of the byte that was asked for.
- `moduleImage_keepsSource`: the statements behind the walk carry what was kept of those before it.
- `KeepsSource.insertText`: an insertion of the second pass keeps that.
-/

namespace ModuleForge

/-! ## What a fragment carries -/

namespace Fragment

variable {bs cs : List Piece} {offset : Nat}

/-- Puts a range in front of others. Two ranges that meet become one. -/
def joinFront (a : Span) : List Span → List Span
  | [] => [a]
  | b :: rest => if a.stop = b.start then ⟨a.start, b.stop⟩ :: rest else a :: b :: rest

/-- The ranges of the source that pieces stand for: texts are left out, and slices that meet then
are one range. -/
def rangesOf : List Piece → List Span
  | [] => []
  | .source span :: rest => joinFront span (rangesOf rest)
  | .text _ :: rest => rangesOf rest

/-- The first source byte that pieces stand for. -/
def startOf? : List Piece → Option Nat
  | [] => none
  | .source span :: _ => some span.start
  | .text _ :: rest => startOf? rest

/-- The texts among pieces, each with the source byte that it stands in front of. -/
def textsOf : List Piece → List (Option Nat × String)
  | [] => []
  | .source _ :: rest => textsOf rest
  | .text t :: rest => (startOf? rest, t) :: textsOf rest

def ranges (f : Fragment) : List Span :=
  rangesOf f.pieces

def texts (f : Fragment) : List (Option Nat × String) :=
  textsOf f.pieces

/-- A range that was cut in two is one range again. -/
theorem joinFront_joinFront (start offset stop : Nat) (spans : List Span) :
    joinFront ⟨start, offset⟩ (joinFront ⟨offset, stop⟩ spans) = joinFront ⟨start, stop⟩ spans := by
  cases spans with
  | nil => simp [joinFront]
  | cons b rest => by_cases h : stop = b.start <;> simp [joinFront, h]

theorem rangesOf_append (h : rangesOf bs = rangesOf cs) (as : List Piece) :
    rangesOf (as ++ bs) = rangesOf (as ++ cs) := by
  induction as with
  | nil => exact h
  | cons a as ih => cases a <;> simp [rangesOf, ih]

theorem startOf?_append (h : startOf? bs = startOf? cs) (as : List Piece) :
    startOf? (as ++ bs) = startOf? (as ++ cs) := by
  induction as with
  | nil => exact h
  | cons a as ih => cases a <;> simp [startOf?, ih]

/-- What follows a text counts only by its first byte. -/
theorem textsOf_append (h : startOf? bs = startOf? cs) (as : List Piece) :
    ∃ xs, textsOf (as ++ bs) = xs ++ textsOf bs ∧ textsOf (as ++ cs) = xs ++ textsOf cs := by
  induction as with
  | nil => exact ⟨[], rfl, rfl⟩
  | cons a as ih =>
    obtain ⟨xs, hb, hc⟩ := ih
    cases a with
    | source span => exact ⟨xs, hb, hc⟩
    | text t =>
      refine ⟨(startOf? (as ++ cs), t) :: xs, ?_, ?_⟩
      · simp [textsOf, hb, startOf?_append h]
      · simp [textsOf, hc]

theorem insertIn?_eq_some {t : String} {ps ps' : List Piece} (h : insertIn? offset t ps = some ps') :
    ∃ as span bs, ps = as ++ .source span :: bs ∧ span.start ≤ offset ∧ offset < span.stop ∧
      ps' = as ++ ((Piece.source span).splitAt offset t ++ bs) := by
  induction ps generalizing ps' with
  | nil => cases h
  | cons p rest ih =>
    rw [insertIn?] at h
    split at h
    · rename_i hp
      cases p with
      | source span =>
        simp only [Piece.holds, Span.contains, Bool.and_eq_true, decide_eq_true_eq] at hp
        exact ⟨[], span, rest, rfl, hp.1, hp.2, (Option.some.inj h).symm⟩
      | text u => cases hp
    · obtain ⟨rest', hrest, rfl⟩ := Option.map_eq_some_iff.1 h
      obtain ⟨as, span, bs, rfl, hle, hlt, rfl⟩ := ih hrest
      exact ⟨p :: as, span, bs, rfl, hle, hlt, rfl⟩

/-- A slice that is split stands for the same source, with the text inside of it. -/
theorem splitAt_source {span : Span} (h : span.start ≤ offset) (t : String) (bs : List Piece) :
    rangesOf ((Piece.source span).splitAt offset t ++ bs) = rangesOf (.source span :: bs) ∧
      startOf? ((Piece.source span).splitAt offset t ++ bs) = some span.start ∧
      textsOf ((Piece.source span).splitAt offset t ++ bs) = (some offset, t) :: textsOf bs := by
  rcases Nat.lt_or_eq_of_le h with hlt | rfl
  · simp [Piece.splitAt, hlt, rangesOf, startOf?, textsOf, joinFront_joinFront]
  · simp [Piece.splitAt, rangesOf, startOf?, textsOf]

/-- **An insertion keeps the ranges of a fragment** and adds one text, in front of the byte that was
asked for. -/
theorem insertAt?_spec {t : String} {f f' : Fragment} (h : f.insertAt? offset t = some f') :
    f'.ranges = f.ranges ∧
      ∃ xs ys, f.texts = xs ++ ys ∧ f'.texts = xs ++ (some offset, t) :: ys := by
  obtain ⟨ps, hps, rfl⟩ := Option.map_eq_some_iff.1 h
  obtain ⟨as, span, bs, hf, hle, -, rfl⟩ := insertIn?_eq_some hps
  obtain ⟨hranges, hstart, htexts⟩ := splitAt_source hle t bs
  simp only [ranges, texts, hf]
  refine ⟨rangesOf_append hranges as, ?_⟩
  have hstart' : startOf? (.source span :: bs) =
      startOf? ((Piece.source span).splitAt offset t ++ bs) := hstart.symm
  obtain ⟨xs, h1, h2⟩ := textsOf_append hstart' as
  exact ⟨xs, textsOf bs, h1, by rw [h2, htexts]⟩

end Fragment

/-! ## What statements carry -/

namespace Statement

/-- The source that is kept of a parsed statement: a text, a declaration without its `export`, or
the expression of a default export. -/
def keptSpan? : Statement → Option Span
  | verbatim ⟨[.source span]⟩ => some span
  | exportDecl decl => some decl.decl
  | exportDefault (.decl _ _ decl _ _) => some decl
  | exportDefault (.expr expr _) => some expr
  | _ => none

theorem insertText?_eq_some {offset : Nat} {t : String} {s s' : Statement}
    (h : s.insertText? offset t = some s') :
    ∃ f f', s.fragment? = some f ∧ f.insertAt? offset t = some f' ∧ s' = s.withFragment f' := by
  simp only [insertText?, Option.bind_eq_bind, Option.bind_eq_some_iff, Option.pure_def,
    Option.some.injEq] at h
  obtain ⟨f, hf, f', hf', rfl⟩ := h
  exact ⟨f, f', hf, hf', rfl⟩

theorem fragment?_withFragment {s : Statement} {f : Fragment} (h : s.fragment? = some f)
    (f' : Fragment) : (s.withFragment f').fragment? = some f' := by
  unfold fragment? at h
  split at h
  · rfl
  · rfl
  · rfl
  · rfl
  · cases h

end Statement

namespace CommonJs

open Reassignment (exportPrefix)

/-- An export in front of an identifier that has the name of a default export. -/
def AtAssignment (tokens : List Token) (parsed : List Statement) (x : Option Nat × String) : Prop :=
  x.2 = exportPrefix ∧ ∃ t ∈ tokens, t.kind = .identifier ∧
    t.value ∈ parsed.flatMap defaultNames ∧ x.1 = some t.span.start

/-- The name behind the keyword of a default declaration that had none. It was given out, and is
exported. -/
def BehindKeyword (parsed lowered : List Statement) (f : Fragment) (x : Option Nat × String) :
    Prop :=
  ∃ kind decl keywordEnd span, .exportDefault (.decl kind none decl keywordEnd span) ∈ parsed ∧
    f.ranges = [decl] ∧
    ∃ names : Names, x = (some keywordEnd, " " ++ names.fresh defaultBase) ∧
      exportAsDefault (names.fresh defaultBase) ∈ lowered

/-- The statements `lowered` carry the source that is kept of the statements `parsed`, each range
once and in order, and no text but exports of assignments and names of default declarations. -/
structure KeepsSource (tokens : List Token) (parsed lowered : List Statement) : Prop where
  ranges : (lowered.filterMap Statement.fragment?).map Fragment.ranges =
    (parsed.filterMap Statement.keptSpan?).map ([·])
  texts : ∀ f ∈ lowered.filterMap Statement.fragment?, ∀ x ∈ f.texts,
    AtAssignment tokens parsed x ∨ BehindKeyword parsed lowered f x

variable {tokens : List Token} {parsed parsed' lowered lowered' : List Statement}
  {f : Fragment} {x : Option Nat × String}

theorem AtAssignment.mono (h : AtAssignment tokens parsed x) (hp : parsed ⊆ parsed') :
    AtAssignment tokens parsed' x := by
  obtain ⟨hx, t, ht, hk, hname, hstart⟩ := h
  obtain ⟨st, hst, hname⟩ := List.mem_flatMap.1 hname
  exact ⟨hx, t, ht, hk, List.mem_flatMap.2 ⟨st, hp hst, hname⟩, hstart⟩

/-- The export of the name is a statement that carries nothing. -/
theorem BehindKeyword.mono {f' : Fragment} (h : BehindKeyword parsed lowered f x)
    (hp : parsed ⊆ parsed') (hf : f'.ranges = f.ranges)
    (hl : ∀ st ∈ lowered, st.fragment? = none → st ∈ lowered') :
    BehindKeyword parsed' lowered' f' x := by
  obtain ⟨kind, decl, keywordEnd, span, hmem, hf', names, hx, hexport⟩ := h
  exact ⟨kind, decl, keywordEnd, span, hp hmem, hf.trans hf', names, hx, hl _ hexport rfl⟩

/-- The name of a default declaration without name is the one text of its fragment. -/
theorem namedText_spec (decl : Span) (keywordEnd : Nat) (name : String) :
    (namedText decl keywordEnd name).ranges = [decl] ∧
      (namedText decl keywordEnd name).texts = [(some keywordEnd, " " ++ name)] := by
  simp [namedText, Fragment.ranges, Fragment.texts, Fragment.rangesOf, Fragment.textsOf,
    Fragment.startOf?, Fragment.joinFront]

namespace KeepsSource

variable {qs : List Statement}

theorem append {ps ps' qs qs' : List Statement} (h : KeepsSource tokens ps qs)
    (h' : KeepsSource tokens ps' qs') : KeepsSource tokens (ps ++ ps') (qs ++ qs') := by
  refine ⟨by simp [h.ranges, h'.ranges], fun f hf x hx => ?_⟩
  rw [List.filterMap_append] at hf
  rcases List.mem_append.1 hf with hf | hf
  · exact (h.texts f hf x hx).imp (·.mono (by simp)) (·.mono (by simp) rfl (by simp +contextual))
  · exact (h'.texts f hf x hx).imp (·.mono (by simp)) (·.mono (by simp) rfl (by simp +contextual))

theorem of_none {ps : List Statement} (hp : ∀ st ∈ ps, st.keptSpan? = none)
    (hq : ∀ st ∈ qs, st.fragment? = none) : KeepsSource tokens ps qs := by
  have hq' : qs.filterMap Statement.fragment? = [] := List.filterMap_eq_nil_iff.2 hq
  refine ⟨?_, fun f hf => ?_⟩
  · rw [hq', List.filterMap_eq_nil_iff.2 hp]
    rfl
  · rw [hq'] at hf
    cases hf

theorem append_none {more : List Statement} (h : KeepsSource tokens parsed qs)
    (hm : ∀ st ∈ more, st.fragment? = none) : KeepsSource tokens parsed (qs ++ more) := by
  have hmore : KeepsSource tokens [] more := .of_none (by simp) hm
  simpa using h.append hmore

theorem of_ofSpan {st s : Statement} {span : Span} (hst : st.keptSpan? = some span)
    (hs : s.fragment? = some (.ofSpan span)) : KeepsSource tokens [st] [s] := by
  have hs' : [s].filterMap Statement.fragment? = [.ofSpan span] := by simp [hs]
  refine ⟨?_, fun f hf x hx => ?_⟩
  · rw [hs']
    simp [hst, Fragment.ofSpan, Fragment.ranges, Fragment.rangesOf, Fragment.joinFront]
  · rw [hs', List.mem_singleton] at hf
    subst hf
    cases hx

theorem of_namedText {kind : DeclKind} {decl : Span} {keywordEnd : Nat} (span : Span)
    (names : Names)
    (hqs : qs.filterMap Statement.fragment? = [namedText decl keywordEnd (names.fresh defaultBase)])
    (hexport : exportAsDefault (names.fresh defaultBase) ∈ qs) :
    KeepsSource tokens [.exportDefault (.decl kind none decl keywordEnd span)] qs := by
  obtain ⟨hranges, htexts⟩ := namedText_spec decl keywordEnd (names.fresh defaultBase)
  refine ⟨?_, fun f hf x hx => .inr ?_⟩
  · rw [hqs, List.map_singleton, hranges]
    rfl
  · rw [hqs, List.mem_singleton] at hf
    subst hf
    rw [htexts, List.mem_singleton] at hx
    exact ⟨kind, decl, keywordEnd, span, List.mem_singleton.2 rfl, hranges, names, hx, hexport⟩

end KeepsSource

/-! ## The walk -/

theorem fragment?_mark (c : Carry) : ∀ st ∈ c.mark, st.fragment? = none := by
  intro st h
  obtain rfl := Carry.eq_of_mem_mark h
  rfl

theorem mark_keepsSource (c : Carry) : KeepsSource tokens [] c.mark :=
  .of_none (by simp) (fragment?_mark c)

theorem exportDefault_keepsSource (decl : ExportDefault) (c : Carry) :
    KeepsSource tokens [.exportDefault decl] (translate c (.exportDefault decl)).1 := by
  have hexport (name : String) : KeepsSource tokens [] [exportAsDefault name] :=
    .of_none (by simp) (by simp [exportAsDefault, Statement.fragment?])
  cases decl with
  | expr expr span =>
    exact (mark_keepsSource c).append ((KeepsSource.of_ofSpan rfl rfl).append (hexport _))
  | decl kind name decl keywordEnd span =>
    cases name with
    | some name =>
      have hdecl : KeepsSource tokens
          [.exportDefault (.decl kind (some name) decl keywordEnd span)]
          [.declaration kind (.ofSpan decl)] := .of_ofSpan rfl rfl
      cases kind with
      | «class» => exact (mark_keepsSource c).append (hdecl.append (hexport _))
      | var => exact (mark_keepsSource c).append ((hexport _).append hdecl)
      | function => exact (mark_keepsSource c).append ((hexport _).append hdecl)
    | none =>
      cases kind <;>
        exact (mark_keepsSource c).append (.of_namedText span c.names rfl (by simp [Carry.name]))

theorem import_keepsSource (decl : ImportDecl) (c : Carry) :
    KeepsSource tokens [.importFrom decl] (translate c (.importFrom decl)).1 := by
  obtain ⟨specifiers, source, span⟩ := decl
  refine .of_none (by simp [Statement.keptSpan?]) ?_
  cases source with
  | dynamic => cases specifiers <;> simp [translate, Statement.fragment?]
  | literal source =>
    cases specifiers with
    | nil => simp [translate, Statement.fragment?]
    | cons spec specifiers =>
      refine List.forall_mem_cons.2 ⟨rfl, fun st hst => ?_⟩
      obtain ⟨spec, -, rfl⟩ := List.mem_map.1 hst
      cases spec <;> rfl

/-- **What one statement is translated to carries what is kept of it.** -/
theorem translate_keepsSource {st : Statement} (h : st.IsParsed) (c : Carry) :
    KeepsSource tokens [st] (translate c st).1 := by
  rcases h with ⟨span, rfl⟩ | ⟨span, h⟩
  · exact .of_ofSpan rfl rfl
  cases st with
  | importFrom decl => exact import_keepsSource decl c
  | exportAll decl =>
    obtain ⟨source, asName, span⟩ := decl
    refine .of_none (by simp [Statement.keptSpan?]) ?_
    cases source with
    | dynamic => simp [translate, Statement.fragment?]
    | literal source =>
      cases asName <;>
        exact List.forall_mem_append.2 ⟨fragment?_mark c, by simp [Statement.fragment?]⟩
  | exportNamed decl =>
    obtain ⟨specifiers, source, span⟩ := decl
    refine .of_none (by simp [Statement.keptSpan?]) ?_
    cases source with
    | none => exact fragment?_mark c
    | some source =>
      cases source with
      | dynamic => simp [translate, Statement.fragment?]
      | literal source =>
        refine List.forall_mem_append.2 ⟨fragment?_mark c, ?_⟩
        simp [reexport, Statement.fragment?]
  | exportDecl decl =>
    have hdecl : KeepsSource tokens [.exportDecl decl]
        [.declaration decl.kind (.ofSpan decl.decl)] := .of_ofSpan rfl rfl
    exact (mark_keepsSource c).append (hdecl.append_none (by simp [Statement.fragment?]))
  | exportDefault decl => exact exportDefault_keepsSource decl c
  | _ => cases h

theorem translateAll_keepsSource {ss : List Statement} (h : ∀ st ∈ ss, st.IsParsed) (c : Carry) :
    KeepsSource tokens ss (translateAll c ss).1 := by
  induction ss generalizing c with
  | nil => exact .of_none (by simp) (by simp [translateAll])
  | cons st rest ih =>
    obtain ⟨hst, hrest⟩ := List.forall_mem_cons.1 h
    exact (translate_keepsSource hst c).append (ih hrest _)

/-- The statements behind the walk carry what is kept of those before it. -/
theorem moduleImage_keepsSource {ss : List Statement} (h : ∀ st ∈ ss, st.IsParsed) (names : Names) :
    KeepsSource tokens ss (moduleImage names ss) := by
  have hlocal : ∀ st ∈ ss.flatMap localExports, st.fragment? = none := by
    intro st hst
    obtain ⟨s, -, hs⟩ := List.mem_flatMap.1 hst
    obtain ⟨spec, rfl⟩ := exists_of_mem_localExports hs
    rfl
  exact ((translateAll_keepsSource h { names }).append_none hlocal).append_none
    (by simp [Statement.fragment?])

/-! ## Assignments to a default export -/

theorem KeepsSource.insertText {xs ys : List Statement} {s s' : Statement} {offset : Nat}
    (h : KeepsSource tokens parsed (xs ++ s :: ys))
    (hs : s.insertText? offset exportPrefix = some s')
    (ha : AtAssignment tokens parsed (some offset, exportPrefix)) :
    KeepsSource tokens parsed (xs ++ s' :: ys) := by
  obtain ⟨f, f', hf, hins, rfl⟩ := Statement.insertText?_eq_some hs
  have hf' := Statement.fragment?_withFragment hf f'
  obtain ⟨hranges, as, bs, has, hbs⟩ := Fragment.insertAt?_spec hins
  have hlists (s : Statement) : (xs ++ s :: ys).filterMap Statement.fragment? =
      xs.filterMap Statement.fragment? ++
        (s.fragment?.toList ++ ys.filterMap Statement.fragment?) := by
    cases hs : s.fragment? <;> simp [hs]
  have hmem : ∀ st ∈ xs ++ s :: ys, st.fragment? = none → st ∈ xs ++ s.withFragment f' :: ys := by
    intro st hst hnone
    rcases List.mem_append.1 hst with hst | hst
    · simp [hst]
    · rcases List.mem_cons.1 hst with rfl | hst
      · rw [hf] at hnone
        cases hnone
      · simp [hst]
  obtain ⟨hr, ht⟩ := h
  rw [hlists, hf] at hr ht
  have hold (g g' : Fragment) (hg : g ∈ xs.filterMap Statement.fragment? ++
        ([f] ++ ys.filterMap Statement.fragment?)) (hg' : g'.ranges = g.ranges)
      (x : Option Nat × String) (hx : x ∈ g.texts) :
      AtAssignment tokens parsed x ∨ BehindKeyword parsed (xs ++ s.withFragment f' :: ys) g' x :=
    (ht g hg x hx).imp id (·.mono (List.Subset.refl _) hg' hmem)
  constructor
  · rw [hlists, hf']
    simpa [hranges] using hr
  · intro g hg x hx
    rw [hlists, hf'] at hg
    simp only [Option.toList_some, List.mem_append, List.mem_singleton] at hg
    rcases hg with hg | rfl | hg
    · exact hold g g (by simp [hg]) rfl x hx
    · rw [hbs] at hx
      rcases List.mem_append.1 hx with hx | hx
      · exact hold f g (by simp) hranges x (by simp [has, hx])
      · rcases List.mem_cons.1 hx with rfl | hx
        · exact .inl ha
        · exact hold f g (by simp) hranges x (by simp [has, hx])
    · exact hold g g (by simp [hg]) rfl x hx

/-! ## Sources -/

/-- **The CommonJS form of a source loses, repeats and moves no byte of it that is kept.** -/
theorem ofSource_keepsSource {source text : String} (h : ofSource source = .ok text) :
    ∃ p, Grammar.parse source = .ok p ∧
      (lower (Token.scan source) p).generate? source.toList = some text.toList ∧
      KeepsSource (Token.scan source) p.statements (lower (Token.scan source) p).statements := by
  obtain ⟨p, hp, htext⟩ := ofSource_eq_ok_iff.1 h
  obtain ⟨ss, hss, hc⟩ := Grammar.parse_covers hp
  obtain ⟨lowered, hlists, hkeeps⟩ := lower_lists hss hc.keywordInside (Token.scan source)
    (moduleImage_keepsSource hc.isParsed _)
    fun ht hk hname hs h => h.insertText hs ⟨rfl, _, ht, hk, hname, rfl⟩
  rw [← hss.statements, ← hlists.statements] at hkeeps
  exact ⟨p, hp, htext, hkeeps⟩

/-- A module with assignments to a default function, and a default class without name. -/
def reassignedDefault : String :=
  "export default function f() \x7b f = 1 \x7d\nf = g;\nexport default class \x7b\x7d"

theorem ofSource_keepsSource_reassignedDefault :
    ∃ text, ofSource reassignedDefault = .ok text ∧ ∃ p, Grammar.parse reassignedDefault = .ok p ∧
      (lower (Token.scan reassignedDefault) p).generate? reassignedDefault.toList =
        some text.toList ∧
      KeepsSource (Token.scan reassignedDefault) p.statements
        (lower (Token.scan reassignedDefault) p).statements := by
  have hok : (ofSource reassignedDefault).toOption.any (fun _ => true) = true := by decide +kernel
  obtain ⟨text, htext, -⟩ := exists_ok_of_any hok
  exact ⟨text, htext, ofSource_keepsSource htext⟩

end CommonJs

end ModuleForge
