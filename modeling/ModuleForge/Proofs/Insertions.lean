import ModuleForge.Proofs.Passages
import ModuleForge.Proofs.Slices

/-!
# Exports in front of assignments

Behind the walk, text is put into the fragments of a program, in front of names that are assigned
to. A passage of the source with such insertions is read as its own tokens, with those of the
inserted text among them.

- `Spliced`: pieces with exports in front of marked offsets.
- `Inserted`: the text of such pieces.
- `Reader.Marked`: the marked offsets are those of names that an export may stand in front of.
- `Widened`: the kinds of tokens with those of exports among them.
- `Inserted.leads`: the tokens of a passage with insertions.
-/

namespace ModuleForge

open Token Text Cursor
open CommonJs.Reassignment (exportPrefix)

/-! ## Pieces -/

/-- **The pieces with exports put in front of marked offsets.** -/
inductive Spliced (marks : Nat → Prop) : List Piece → List Piece → Prop
  | nil : Spliced marks [] []
  | keep {p : Piece} {ps ps' : List Piece} : Spliced marks ps ps' → Spliced marks (p :: ps) (p :: ps')
  | front {start stop : Nat} {ps ps' : List Piece} : start < stop → marks start →
      Spliced marks (.source ⟨start, stop⟩ :: ps) ps' →
      Spliced marks (.source ⟨start, stop⟩ :: ps) (.text exportPrefix :: ps')
  | cut {start mid stop : Nat} {ps ps' : List Piece} : start < mid → mid < stop → marks mid →
      Spliced marks (.source ⟨mid, stop⟩ :: ps) ps' →
      Spliced marks (.source ⟨start, stop⟩ :: ps) (.source ⟨start, mid⟩ :: .text exportPrefix :: ps')

/-- **The text `x` from the offset `lo` on, with exports put in front of marked offsets.** -/
inductive Inserted (marks : Nat → Prop) : Nat → List Char → List Char → Prop
  | same (lo : Nat) (x : List Char) : Inserted marks lo x x
  | cut {lo : Nat} {y z z' : List Char} : marks (lo + byteLength y) → z ≠ [] →
      Inserted marks (lo + byteLength y) z z' →
      Inserted marks lo (y ++ z) (y ++ (exportPrefix.toList ++ z'))

section
variable {marks : Nat → Prop} {ps ps' : List Piece} {src x : List Char} {offset : Nat}

theorem Spliced.refl (ps : List Piece) : Spliced marks ps ps := by
  induction ps with
  | nil => exact .nil
  | cons p ps ih => exact .keep ih

theorem Spliced.split {start stop : Nat} (hlo : start ≤ offset) (hhi : offset < stop)
    (hmark : marks offset) (h : Spliced marks (.source ⟨offset, stop⟩ :: ps) ps') :
    Spliced marks (.source ⟨start, stop⟩ :: ps)
      ((if start < offset then [Piece.source ⟨start, offset⟩] else []) ++
        .text exportPrefix :: ps') := by
  by_cases hlt : start < offset
  · rw [if_pos hlt]
    exact .cut hlt hhi hmark h
  · obtain rfl : start = offset := Nat.le_antisymm hlo (Nat.le_of_not_lt hlt)
    rw [if_neg hlt]
    exact .front hhi hmark h

theorem holds_source {start stop : Nat} :
    (Piece.source ⟨start, stop⟩).holds offset = true ↔ start ≤ offset ∧ offset < stop := by
  simp [Piece.holds, Span.contains]

/-- **One more insertion.** -/
theorem Spliced.insertIn {ps'' : List Piece} (h : Spliced marks ps ps') (hmark : marks offset)
    (hins : Fragment.insertIn? offset exportPrefix ps' = some ps'') : Spliced marks ps ps'' := by
  have htext (t : String) : (Piece.text t).holds offset = false := rfl
  induction h generalizing ps'' with
  | nil => cases hins
  | @keep p ps ps' h ih =>
    rw [Fragment.insertIn?] at hins
    split at hins
    · rename_i hholds
      obtain rfl := Option.some.inj hins
      cases p with
      | text => cases hholds
      | source span =>
        obtain ⟨hlo, hhi⟩ := holds_source.1 hholds
        rw [Piece.splitAt, List.append_assoc]
        exact .split hlo hhi hmark (.keep h)
    · obtain ⟨rest, hrest, rfl⟩ := Option.map_eq_some_iff.1 hins
      exact .keep (ih hrest)
  | @front start stop ps ps' hlt hm h ih =>
    rw [Fragment.insertIn?, htext, if_neg (by simp)] at hins
    obtain ⟨rest, hrest, rfl⟩ := Option.map_eq_some_iff.1 hins
    exact .front hlt hm (ih hrest)
  | @cut start mid stop ps ps' hlt hlt' hm h ih =>
    rw [Fragment.insertIn?] at hins
    split at hins
    · rename_i hholds
      obtain rfl := Option.some.inj hins
      obtain ⟨hlo, hhi⟩ := holds_source.1 hholds
      rw [Piece.splitAt, List.append_assoc]
      exact .split hlo (Nat.lt_trans hhi hlt') hmark (.cut hhi hlt' hm h)
    · obtain ⟨rest, hrest, rfl⟩ := Option.map_eq_some_iff.1 hins
      rw [Fragment.insertIn?, htext, if_neg (by simp)] at hrest
      obtain ⟨rest', hrest', rfl⟩ := Option.map_eq_some_iff.1 hrest
      exact .cut hlt hlt' hm (ih hrest')

theorem Spliced.eq_nil (h : Spliced marks [] ps') : ps' = [] := by
  cases h
  rfl

theorem Spliced.text {t : String} (h : Spliced marks (.text t :: ps) ps') :
    ∃ rest, ps' = .text t :: rest ∧ Spliced marks ps rest := by
  cases h with
  | keep h => exact ⟨_, rfl, h⟩

theorem slice?_eq_some {start stop : Nat} (h : slice? start stop src = some x) :
    ∃ before after, src = before ++ (x ++ after) ∧ byteLength before = start ∧
      start + byteLength x = stop := by
  unfold slice? at h
  split at h
  · obtain ⟨⟨before, rest⟩, hbefore, h⟩ := Option.bind_eq_some_iff.1 h
    obtain ⟨⟨taken, after⟩, hafter, htaken⟩ := Option.map_eq_some_iff.1 h
    obtain rfl : taken = x := htaken
    obtain ⟨rfl, rfl⟩ := splitBytes?_eq_some_iff.1 hbefore
    obtain ⟨rfl, hx⟩ := splitBytes?_eq_some_iff.1 hafter
    exact ⟨before, after, rfl, rfl, by omega⟩
  · cases h

theorem slice?_cut {start mid stop : Nat} (h : slice? start stop src = some x)
    (hmid : IsBoundary src mid) (hlo : start ≤ mid) (hhi : mid < stop) :
    ∃ y z, x = y ++ z ∧ slice? start mid src = some y ∧ slice? mid stop src = some z ∧
      start + byteLength y = mid ∧ z ≠ [] := by
  obtain ⟨before, after, rfl, rfl, rfl⟩ := slice?_eq_some h
  obtain ⟨y, rest, hy, rfl⟩ := hmid.cut hlo
  -- The cut is inside of the slice, not behind it.
  rcases List.append_eq_append_iff.1 hy with ⟨z, rfl, rfl⟩ | ⟨z, rfl, rfl⟩
  · simp only [byteLength_append] at hhi
    omega
  · refine ⟨y, z, rfl, ?_, ?_, rfl, ?_⟩
    · rw [List.append_assoc]
      exact slice?_append before y (z ++ after)
    · have hslice := slice?_append (before ++ y) z after
      rw [byteLength_append] at hslice
      rw [byteLength_append, ← Nat.add_assoc, List.append_assoc y, ← List.append_assoc before]
      exact hslice
    · rintro rfl
      simp only [List.append_nil] at hhi
      omega

/-- **What is put into a slice is inserted into its text.** -/
theorem Spliced.source {src x : List Char} {start stop : Nat}
    (h : Spliced marks (.source ⟨start, stop⟩ :: ps) ps')
    (hmarks : ∀ m, marks m → IsBoundary src m) (hx : slice? start stop src = some x) :
    ∃ x' rest, Inserted marks start x x' ∧ Spliced marks ps rest ∧
      Fragment.renderPieces? src ps' = (Fragment.renderPieces? src rest).map (x' ++ ·) := by
  generalize hps : Piece.source ⟨start, stop⟩ :: ps = qs at h
  induction h generalizing start x with
  | nil => cases hps
  | @keep p ps ps' h ih =>
    obtain ⟨rfl, rfl⟩ := List.cons.inj hps
    refine ⟨x, ps', .same _ x, h, ?_⟩
    rw [Fragment.renderPieces?, Piece.render?, Span.text?, hx]
    cases Fragment.renderPieces? src ps' <;> rfl
  | @front start' stop' ps ps' hlt hm h ih =>
    obtain ⟨hspan, rfl⟩ := List.cons.inj hps
    obtain ⟨rfl, rfl⟩ : start = start' ∧ stop = stop' := by simpa using hspan
    obtain ⟨x', rest, hins, hrest, hrender⟩ := ih hx rfl
    refine ⟨exportPrefix.toList ++ x', rest, ?_, hrest, ?_⟩
    · have hne : x ≠ [] := by
        rintro rfl
        obtain ⟨y, z, hyz, -, -, -, hz⟩ := slice?_cut hx (hmarks _ hm) (Nat.le_refl _) hlt
        exact hz (List.append_eq_nil_iff.1 hyz.symm).2
      exact @Inserted.cut marks start [] x x' hm hne hins
    · rw [Fragment.renderPieces?, hrender]
      cases Fragment.renderPieces? src rest <;> simp [Piece.render?]
  | @cut start' mid stop' ps ps' hlt hlt' hm h ih =>
    obtain ⟨hspan, rfl⟩ := List.cons.inj hps
    obtain ⟨rfl, rfl⟩ : start = start' ∧ stop = stop' := by simpa using hspan
    obtain ⟨y, z, rfl, hy, hz, rfl, hne⟩ := slice?_cut hx (hmarks _ hm) (Nat.le_of_lt hlt) hlt'
    obtain ⟨z', rest, hins, hrest, hrender⟩ := ih hz rfl
    refine ⟨y ++ (exportPrefix.toList ++ z'), rest, .cut hm hne hins, hrest, ?_⟩
    rw [Fragment.renderPieces?, Piece.render?, Span.text?, hy, Fragment.renderPieces?, hrender]
    cases Fragment.renderPieces? src rest <;> simp [Piece.render?]

/-- The text of a slice with what is put into it. -/
theorem Spliced.ofSpan {span : Span} (h : Spliced marks [.source span] ps')
    (hmarks : ∀ m, marks m → IsBoundary src m) (hx : span.text? src = some x) :
    ∃ x', Inserted marks span.start x x' ∧ Fragment.render? src ⟨ps'⟩ = some x' := by
  obtain ⟨x', rest, hins, hrest, hrender⟩ := h.source hmarks hx
  obtain rfl := hrest.eq_nil
  exact ⟨x', hins, by simpa [Fragment.render?, Fragment.renderPieces?] using hrender⟩

theorem Spliced.getLast? {start stop : Nat}
    (h : Spliced marks [.source ⟨start, stop⟩] ps') :
    ∃ init mid, ps' = init ++ [.source ⟨mid, stop⟩] ∧
      (mid = start ∨ marks mid ∧ start ≤ mid ∧ mid < stop) := by
  generalize hps : [Piece.source ⟨start, stop⟩] = qs at h
  induction h generalizing start with
  | nil => cases hps
  | @keep p ps ps' h ih =>
    obtain ⟨rfl, rfl⟩ := List.cons.inj hps
    obtain rfl := h.eq_nil
    exact ⟨[], start, rfl, .inl rfl⟩
  | @front start' stop' ps ps' hlt hm h ih =>
    obtain ⟨init, mid, rfl, hmid⟩ := ih hps
    exact ⟨_ :: init, mid, rfl, hmid⟩
  | @cut start' mid stop' ps ps' hlt hlt' hm h ih =>
    obtain ⟨hspan, rfl⟩ := List.cons.inj hps
    obtain ⟨rfl, rfl⟩ : start = start' ∧ stop = stop' := by simpa using hspan
    obtain ⟨init, mid', rfl, hmid⟩ := ih rfl
    refine ⟨_ :: _ :: init, mid', rfl, .inr ?_⟩
    rcases hmid with rfl | ⟨hm', hle, hlt''⟩
    · exact ⟨hm, Nat.le_of_lt hlt, hlt'⟩
    · exact ⟨hm', Nat.le_trans (Nat.le_of_lt hlt) hle, hlt''⟩

/-- **What is put into a slice is put behind its first part**, if no mark comes before. -/
theorem Spliced.behind {z : List Char} {start mid stop : Nat}
    (h : Spliced marks [.source ⟨start, stop⟩] ps') (hmarks : ∀ m, marks m → IsBoundary src m)
    (hfirst : ∀ m, marks m → mid ≤ m) (hlt : start < mid) (hlt' : mid < stop)
    (hx : slice? start mid src = some x) (hz : slice? mid stop src = some z)
    (hxz : slice? start stop src = some (x ++ z)) :
    ∃ rest, Spliced marks [.source ⟨mid, stop⟩] rest ∧
      Fragment.renderPieces? src ps' = (Fragment.renderPieces? src rest).map (x ++ ·) := by
  cases h with
  | keep h =>
    obtain rfl := h.eq_nil
    refine ⟨_, .keep .nil, ?_⟩
    simp [Fragment.renderPieces?, Piece.render?, Span.text?, hz, hxz]
  | front _ hm => exact absurd (hfirst _ hm) (by omega)
  | @cut _ offset _ _ rest hlo hhi hm h =>
    have hmid : IsBoundary src mid := by
      obtain ⟨before, after, rfl, rfl, rfl⟩ := slice?_eq_some hx
      exact ⟨before ++ x, after, by simp, by simp⟩
    obtain ⟨y, _, -, hy, -⟩ := slice?_cut hxz (hmarks _ hm) (Nat.le_of_lt hlo) hhi
    rcases Nat.lt_or_eq_of_le (hfirst _ hm) with hlt'' | rfl
    · obtain ⟨x', y', rfl, hx', hy', -⟩ := slice?_cut hy hmid (Nat.le_of_lt hlt) hlt''
      obtain rfl := Option.some.inj (hx.symm.trans hx')
      refine ⟨_, .cut hlt'' hhi hm h, ?_⟩
      cases hrest : Fragment.renderPieces? src rest <;>
        simp [Fragment.renderPieces?, Piece.render?, Span.text?, hy, hy', hrest]
    · refine ⟨_, .front hhi hm h, ?_⟩
      cases hrest : Fragment.renderPieces? src rest <;>
        simp [Fragment.renderPieces?, Piece.render?, Span.text?, hx, hrest]

end

/-! ## Texts -/

section
variable {marks : Nat → Prop} {lo : Nat} {x x' : List Char}

theorem opensWord_exportPrefix (out : List Char) : OpensWord (exportPrefix.toList ++ out) :=
  ⟨'e', rfl, by decide +kernel, by decide⟩

theorem Inserted.getLast? (h : Inserted marks lo x x') : x'.getLast? = x.getLast? := by
  induction h with
  | same => rfl
  | @cut lo y z z' _ hz _ ih =>
    have hlast := List.getLast?_eq_some_getLast hz
    rw [List.getLast?_append, List.getLast?_append, List.getLast?_append, ih, hlast]
    rfl

theorem Inserted.ne_nil (h : Inserted marks lo x x') (hx : x ≠ []) : x' ≠ [] := by
  intro hnil
  have hlast := h.getLast?
  rw [hnil, List.getLast?_eq_some_getLast hx] at hlast
  cases hlast

/-- Where nothing is marked, nothing is put in. -/
theorem Inserted.eq_or_mark (h : Inserted marks lo x x') :
    x' = x ∨ ∃ m, marks m ∧ lo ≤ m ∧ m < lo + byteLength x := by
  cases h with
  | same => exact .inl rfl
  | @cut _ y z z' hm hz _ =>
    have hzpos : 0 < byteLength z := byteLength_pos hz
    refine .inr ⟨_, hm, Nat.le_add_right _ _, ?_⟩
    rw [byteLength_append]
    omega

/-- The text starts with an export, or as it did before. -/
theorem Inserted.head (h : Inserted marks lo x x') :
    x' = x ∨ marks lo ∧ (∀ out, OpensWord (x' ++ out)) ∨
      ∃ y z z', y ≠ [] ∧ x = y ++ z ∧ x' = y ++ z' ∧ marks (lo + byteLength y) ∧
        ∀ out, OpensWord (z' ++ out) := by
  cases h with
  | same => exact .inl rfl
  | @cut _ y z z' hm _ _ =>
    have hword (out : List Char) : OpensWord (exportPrefix.toList ++ z' ++ out) := by
      rw [List.append_assoc]
      exact opensWord_exportPrefix _
    cases y with
    | nil => exact .inr (.inl ⟨by simpa using hm, hword⟩)
    | cons c y => exact .inr (.inr ⟨c :: y, z, _, by simp, rfl, rfl, hm, hword⟩)

end

/-! ## Kinds of tokens -/

/-- The kinds of the tokens of an export in front of an assignment. -/
def exportKinds : List Kind :=
  [.identifier, .dot, .identifier, .assign]

/-- **The kinds of tokens with exports put in front of some of the names.** -/
inductive Widened : List Kind → List Kind → Prop
  | nil : Widened [] []
  | cons {k : Kind} {ks ls : List Kind} : Widened ks ls → Widened (k :: ks) (k :: ls)
  | insert {ks ls : List Kind} : Widened (.identifier :: ks) ls →
      Widened (.identifier :: ks) (exportKinds ++ ls)

section
variable {ks ls ks' ls' : List Kind}

theorem Widened.refl (ks : List Kind) : Widened ks ks := by
  induction ks with
  | nil => exact .nil
  | cons k ks ih => exact .cons ih

theorem Widened.append (h : Widened ks ls) (h' : Widened ks' ls') :
    Widened (ks ++ ks') (ls ++ ls') := by
  induction h with
  | nil => exact h'
  | cons _ ih => exact .cons ih
  | insert _ ih =>
    rw [List.append_assoc]
    exact .insert ih

theorem Widened.head? (h : Widened ks ls) : ls.head? = ks.head? := by
  cases h <;> rfl

theorem Widened.mem (h : Widened ks ls) {k : Kind} (hk : k ∈ ls) : k ∈ ks ∨ k ∈ exportKinds := by
  induction h with
  | nil => cases hk
  | cons _ ih =>
    rcases List.mem_cons.1 hk with rfl | hk
    · exact .inl (by simp)
    · exact (ih hk).imp (List.mem_cons_of_mem _) id
  | insert _ ih =>
    rcases List.mem_append.1 hk with hk | hk
    · exact .inr hk
    · exact ih hk

end

/-! ## Readers -/

theorem append_inj_of_byteLength {xs ys xs' ys' : List Char} (h : xs ++ ys = xs' ++ ys')
    (hlength : byteLength xs = byteLength xs') : xs = xs' ∧ ys = ys' := by
  have hsplit := splitBytes?_byteLength xs ys
  rw [h, hlength, splitBytes?_byteLength] at hsplit
  obtain ⟨rfl, rfl⟩ := Prod.mk.inj (Option.some.inj hsplit)
  exact ⟨rfl, rfl⟩

/-- **The marked offsets are those of names**, each of which is no property, and does not follow a
token that goes on with letters directly. -/
def Token.Reader.Marked (marks : Nat → Prop) (r : Reader) : Prop :=
  ∀ m, marks m → r.cursor.pos ≤ m → ∃ us q, Runs r us q ∧ q.forward.cursor.pos = m ∧
    (nextToken q).1.kind = .identifier ∧ isPoint q.last = false ∧
    (us ≠ [] → q.cursor.pos = m → q.last.all (!·.takesLetters) = true)

section
variable {marks : Nat → Prop} {r r' : Reader} {ts : List Token}

theorem forward_pos_lt (herr : (nextToken r).1.kind ≠ .error) (heof : (nextToken r).1.kind ≠ .eof) :
    r.cursor.pos ≤ r.forward.cursor.pos ∧
      r.forward.cursor.pos < (nextToken r).2.cursor.pos := by
  obtain ⟨start, hclear, hcovers⟩ := nextToken_covers herr heof
  rw [Reader.forward, hclear]
  exact ⟨(reaches_of_clear hclear).pos_le, hcovers.passes.2⟩

theorem span_start (herr : (nextToken r).1.kind ≠ .error) (heof : (nextToken r).1.kind ≠ .eof) :
    (nextToken r).1.span.start = r.forward.cursor.pos := by
  obtain ⟨start, hclear, hcovers⟩ := nextToken_covers herr heof
  rw [Reader.forward, hclear, hcovers.span]
  rfl

theorem Token.Runs.forward_pos_lt (h : Runs r ts r') (hts : ts ≠ []) :
    r.forward.cursor.pos < r'.cursor.pos := by
  cases h with
  | nil => exact absurd rfl hts
  | cons herr heof h =>
    exact Nat.lt_of_lt_of_le (ModuleForge.forward_pos_lt herr heof).2 h.reaches.pos_le

theorem Token.Reader.Marked.of_runs (h : r.Marked marks) (hr : Runs r ts r') : r'.Marked marks := by
  intro m hm hle
  obtain ⟨us, q, hus, hstart, hkind, hpoint, hapart⟩ :=
    h m hm (Nat.le_trans hr.reaches.pos_le hle)
  rcases hus.split hr with ⟨vs, rfl, hvs⟩ | ⟨vs, rfl, hvs⟩
  · -- The name does not stand before the end of the run.
    cases vs with
    | nil =>
      cases hvs
      exact ⟨[], r', .nil r', hstart, hkind, hpoint, fun h => absurd rfl h⟩
    | cons v vs =>
      have := hvs.forward_pos_lt (by simp)
      omega
  · refine ⟨vs, q, hvs, hstart, hkind, hpoint, fun hne => hapart ?_⟩
    simp [hne]

theorem Token.Reader.Marked.forward (h : r.Marked marks) (herr : (nextToken r).1.kind ≠ .error)
    (heof : (nextToken r).1.kind ≠ .eof) : r.forward.Marked marks := by
  intro m hm hle
  obtain ⟨us, q, hus, hstart, hkind, hpoint, hapart⟩ :=
    h m hm (Nat.le_trans (forward_pos_lt herr heof).1 hle)
  cases us with
  | nil =>
    cases hus
    have hnext := nextToken_forward herr
    refine ⟨[], r.forward, .nil _, ?_, by rw [hnext]; exact hkind, hpoint, fun h => absurd rfl h⟩
    rw [forward_forward herr, hstart]
  | cons u us => exact ⟨_, q, hus.forward, hstart, hkind, hpoint, fun _ => hapart (by simp)⟩

theorem Token.Reader.Marked.kind (h : r.Marked marks) (herr : (nextToken r).1.kind ≠ .error)
    (heof : (nextToken r).1.kind ≠ .eof) (hm : marks r.forward.cursor.pos) :
    (nextToken r).1.kind = .identifier := by
  obtain ⟨us, q, hus, hstart, hkind, -⟩ := h _ hm (forward_pos_lt herr heof).1
  cases us with
  | nil =>
    cases hus
    exact hkind
  | cons u us =>
    have hlt := hus.forward_pos_lt (by simp)
    have hle := (forward_pos_lt (r := q) (by simp [hkind]) (by simp [hkind])).1
    omega

theorem Token.Reader.Marked.head (h : r.Marked marks) {y f : List Char}
    (hm : marks (r.cursor.pos + byteLength y)) (hrest : r.cursor.rest = y ++ f) :
    ∃ c, f.head? = some c ∧ (c = '\\' ∨ isIdentifierStart c = true) := by
  obtain ⟨us, q, hus, hstart, hkind, -⟩ := h _ hm (Nat.le_add_right _ _)
  have hword : (nextToken q).1.kind.isOfWord = true := by rw [hkind]; rfl
  obtain ⟨b, hb, -, hpos⟩ := exists_blanks (r := q) (by simp [hkind]) (by simp [hkind])
  obtain ⟨u, hu, hpos'⟩ := hus.reaches
  obtain ⟨-, rfl⟩ : u ++ b = y ∧ q.ahead = f := by
    refine append_inj_of_byteLength ?_ ?_
    · rw [List.append_assoc, ← hb, ← hu, hrest]
    · rw [byteLength_append]
      omega
  obtain ⟨newline, cur, c, rest, htrivia, hcur, hc, -⟩ := nextToken_isOfWord hword
  exact ⟨c, by rw [Reader.ahead, htrivia, Trivia.cursor, hcur]; rfl, hc⟩

/-- No mark and no number starts where a name does. -/
theorem not_stops_of_start {c : Char} (hc : c = '\\' ∨ isIdentifierStart c = true) :
    stops c = false ∧ c.isDigit = false := by
  rcases hc with rfl | hc
  · decide +kernel
  · refine ⟨?_, isDigit_of_start hc⟩
    rw [Bool.eq_false_iff]
    intro hstop
    rw [@false_of_stops isIdentifierStart (by decide +kernel) c hstop] at hc
    cases hc

theorem Inserted.head?_eq {x x' g : List Char} {c : Char} (h : Inserted marks r.cursor.pos x x')
    (hmarked : r.Marked marks) (hrest : r.cursor.rest = x ++ g) (hc : x.head? = some c)
    (hstart : c ≠ '\\' ∧ isIdentifierStart c = false) : x'.head? = some c := by
  rcases h.head with rfl | ⟨hm, -⟩ | ⟨y, z, z', hy, rfl, rfl, -⟩
  · exact hc
  · obtain ⟨d, hd, hname⟩ := @Reader.Marked.head marks r hmarked [] _ hm rfl
    replace hd : r.cursor.rest.head? = some d := hd
    rw [hrest, List.head?_append, hc, Option.some_or] at hd
    obtain rfl := Option.some.inj hd
    rcases hname with hname | hname
    · exact absurd hname hstart.1
    · rw [hstart.2] at hname
      cases hname
  · obtain ⟨d, y, rfl⟩ := List.exists_cons_of_ne_nil hy
    exact hc

/-- Where a name starts directly behind a token, that token does not go on with letters. -/
def Token.Reader.Loose (marks : Nat → Prop) (r : Reader) : Prop :=
  marks r.cursor.pos → r.last.all (!·.takesLetters) = true

theorem Token.Reader.Marked.loose (h : r.Marked marks) (hr : Runs r ts r') (hts : ts ≠ []) :
    r'.Loose marks := by
  intro hm
  obtain ⟨us, q, hus, hstart, hkind, -, hapart⟩ := h _ hm hr.reaches.pos_le
  have hne : (nextToken q).1.kind ≠ .error ∧ (nextToken q).1.kind ≠ .eof := by simp [hkind]
  have hq := (forward_pos_lt hne.1 hne.2).1
  rcases hus.split hr with ⟨vs, rfl, hvs⟩ | ⟨vs, rfl, hvs⟩
  · cases vs with
    | nil =>
      cases hvs
      exact hapart (by simpa using hts) rfl
    | cons v vs =>
      have := hvs.forward_pos_lt (by simp)
      omega
  · cases hvs with
    | nil => exact hapart (by simpa using hts) rfl
    | cons herr heof hvs =>
      have hlt := (Token.Runs.cons herr heof hvs).forward_pos_lt (by simp)
      have := (forward_pos_lt herr heof).1
      omega

end

/-! ## Passages with insertions -/

theorem leads_exportPrefix (last : Option Kind) (out : List Char) :
    Leads last exportPrefix.toList out exportKinds (some .assign) := by
  let lexemes : List Lexeme :=
    [.word "exports", .mark .dot, .word "default", .space, .mark .assign, .space]
  have hends {c : Char} (hc : isIdentifierPart c = false) (hback : c ≠ '\\') (rest : List Char) :
      EndsWord (c :: rest) := Lexeme.endsWord_of_head hc hback
  have hfit : Lexeme.FitAll out lexemes :=
    ⟨⟨by decide +kernel, hends (by decide +kernel) (by decide) _⟩,
      .inr (.inr ⟨rfl, 'd', rfl, by decide +kernel⟩),
      ⟨by decide +kernel, hends (by decide +kernel) (by decide) _⟩, trivial, .inr (.inl rfl), trivial,
      trivial⟩
  have hword : wordKind last "exports" = .identifier := by
    unfold wordKind
    split <;> decide +kernel
  have hread := leads_lexemes hfit last
  rw [show Lexeme.text lexemes = exportPrefix.toList by decide +kernel] at hread
  have hkinds : (Lexeme.spell last lexemes).map (·.kind) = exportKinds := by
    show [wordKind last "exports", .dot, .identifier, .assign] = exportKinds
    rw [hword]
    rfl
  have hbehind : lexemes.foldl Lexeme.kindBehind last = some .assign := rfl
  rwa [hkinds, hbehind] at hread

section
variable {marks : Nat → Prop} {r r' : Reader} {ts : List Token} {x x' b g g' : List Char}
  {last' : Option Kind}

theorem ne_point_of_blanks {final : Bool} (h : Blanks final b) : b ≠ ['.'] := by
  rintro rfl
  cases h with
  | blank hc => exact absurd hc (by decide)

/-- **The tokens of a passage with insertions** are its own tokens with those of exports among them,
before a text that may follow the passage. -/
theorem Inserted.leads {lo : Nat} (hins : Inserted marks lo x x') (hlo : lo = r.cursor.pos)
    (h : Runs r ts r') (hx : r.cursor.rest = x ++ g) (hb : r'.cursor.rest = b ++ g)
    (hpoint : b ≠ ['.'])
    (hstart : (nextToken r').1.kind ≠ .error → (nextToken r').1.kind ≠ .eof →
      r'.cursor.pos + byteLength b ≤ r'.forward.cursor.pos)
    (hmarked : r.Marked marks) (hlast : SameNext r last') (hcut : Cut x b g g' r'.last)
    (hend : r.AllBounded)
    (hblanks : ∀ last, Leads last b g' [] last) :
    ∃ ks, Widened (ts.map (·.kind)) ks ∧
      Leads last' x' g' ks (if ts = [] then last' else r'.last) := by
  induction hins generalizing r ts last' with
  | same => exact ⟨_, .refl _, h.leads hx hb hpoint hlast (fun _ => hcut) (.inl hend) (hblanks _)⟩
  | @cut lo y z z' hmark hz hins ih =>
    subst hlo
    obtain ⟨us, q, hus, hm, hkind, hq, hapart⟩ := hmarked _ hmark (Nat.le_add_right _ _)
    have hne : (nextToken q).1.kind ≠ .error ∧ (nextToken q).1.kind ≠ .eof := by
      rw [hkind]
      exact ⟨nofun, nofun⟩
    have htotal : r.cursor.pos + byteLength (y ++ z) = r'.cursor.pos + byteLength b := by
      obtain ⟨u, hu, hpos⟩ := h.reaches
      rw [hb, ← List.append_assoc] at hu
      rw [List.append_cancel_right (hx.symm.trans hu), byteLength_append, hpos, Nat.add_assoc]
    -- The name stands inside of the passage.
    obtain ⟨vs, rfl, hvs, hvs'⟩ : ∃ vs, ts = us ++ vs ∧ Runs q vs r' ∧ vs ≠ [] := by
      have hzpos : 0 < byteLength z := byteLength_pos hz
      rw [byteLength_append] at htotal
      rcases hus.split h with ⟨vs, rfl, hvs⟩ | ⟨vs, rfl, hvs⟩
      · refine ⟨vs, rfl, hvs, ?_⟩
        rintro rfl
        cases hvs
        have := hstart hne.1 hne.2
        omega
      · have hle := (forward_pos_lt hne.1 hne.2).1
        cases hvs with
        | nil =>
          have := hstart hne.1 hne.2
          omega
        | cons herr heof hvs' =>
          have hlt := (Token.Runs.cons herr heof hvs').forward_pos_lt (by simp)
          have := hstart herr heof
          omega
    -- Blanks stand between the token before it and the name.
    obtain ⟨b0, hb0, hblanks0, hpos0⟩ := exists_blanks hne.1 hne.2
    obtain ⟨u0, hu0, hpos⟩ := hus.reaches
    obtain ⟨rfl, hahead⟩ : u0 ++ b0 = y ∧ q.ahead = z ++ g := by
      refine append_inj_of_byteLength ?_ ?_
      · rw [List.append_assoc, ← hb0, ← hu0, hx, List.append_assoc]
      · rw [byteLength_append]
        omega
    rw [hahead] at hb0
    -- What comes before the name, the export, and the name with what follows it.
    have hfront : Leads last' (u0 ++ b0) (exportPrefix.toList ++ (z' ++ g')) (us.map (·.kind))
        (if us = [] then last' else q.last) := by
      refine hus.leads (by rw [hx, List.append_assoc]) hb0 (ne_point_of_blanks hblanks0) hlast ?_
        (.inl hend) (leads_blanks hblanks0 (by simp) _)
      refine fun hne => .inr (.inr ⟨opensWord_exportPrefix _, fun hnil => hapart hne ?_⟩)
      rw [hpos, hnil, List.append_nil]
    obtain ⟨v, vs, rfl⟩ := List.exists_cons_of_ne_nil hvs'
    have hv : v.kind = .identifier := by
      cases hvs with
      | cons => exact hkind
    have hcut' : Cut z b g g' r'.last := by
      refine hcut.imp id (Or.imp ?_ id)
      rintro ⟨c, hc, hblank⟩
      rw [List.getLast?_append, List.getLast?_eq_some_getLast hz, Option.some_or] at hc
      exact ⟨c, by rw [List.getLast?_eq_some_getLast hz, hc], hblank⟩
    have hkind' : (nextToken q.forward).1.kind = .identifier := by
      rw [nextToken_forward hne.1]
      exact hkind
    have hsame : SameNext q.forward (some .assign) :=
      @sameNext_of_isOfWord q.forward (by rw [hkind']; rfl) hq _ rfl
    obtain ⟨ks, hks, hback⟩ := @ih q.forward _ (some .assign) hm.symm hvs.forward hahead
      ((hmarked.of_runs hus).forward hne.1 hne.2) hsame hcut' ((hend.of_runs hus).forward hne.1)
    rw [List.map_cons] at hks
    refine ⟨us.map (·.kind) ++ (exportKinds ++ ks), ?_, ?_⟩
    · rw [List.map_append, List.map_cons, hv]
      exact (Widened.refl _).append (.insert (by rw [← hv]; exact hks))
    · rw [if_neg (List.cons_ne_nil _ _)] at hback
      have hname := (leads_exportPrefix (if us = [] then last' else q.last) _).append hback
      rw [← List.append_assoc] at hfront
      rw [if_neg (by simp)]
      exact hfront.append hname

end

/-! ## Statements -/

namespace Statement

/-- **The statement with exports put into the text that it carries.** -/
inductive Respelled (marks : Nat → Prop) (st : Statement) : Statement → Prop
  | same : st.fragment? = none → Respelled marks st st
  | spliced {f : Fragment} {ps : List Piece} : st.fragment? = some f → Spliced marks f.pieces ps →
      Respelled marks st (st.withFragment ⟨ps⟩)

section
variable {marks : Nat → Prop} {st st' : Statement}

theorem withFragment_self {f : Fragment} (h : st.fragment? = some f) : st.withFragment f = st := by
  unfold fragment? at h
  split at h
  · exact congrArg _ (Option.some.inj h).symm
  · exact congrArg _ (Option.some.inj h).symm
  · rw [Option.some.inj h]; rfl
  · rw [Option.some.inj h]; rfl
  · cases h

theorem withFragment_withFragment {g : Fragment} (h : st.fragment? = some g) (f f' : Fragment) :
    (st.withFragment f).withFragment f' = st.withFragment f' := by
  unfold fragment? at h
  split at h <;> first | rfl | cases h

theorem isSynthesized_withFragment (st : Statement) (f : Fragment) :
    (st.withFragment f).isSynthesized = st.isSynthesized := by
  unfold withFragment
  split <;> rfl

theorem Respelled.refl (marks : Nat → Prop) (st : Statement) : Respelled marks st st := by
  cases hf : st.fragment? with
  | none => exact .same hf
  | some f =>
    have h := @Respelled.spliced marks st f f.pieces hf (.refl _)
    rwa [withFragment_self hf] at h

theorem Respelled.eq_of_none (h : Respelled marks st st') (hf : st.fragment? = none) : st' = st := by
  cases h with
  | same => rfl
  | spliced hf' => rw [hf] at hf'; cases hf'

theorem Respelled.exists_pieces {f : Fragment} (h : Respelled marks st st')
    (hf : st.fragment? = some f) :
    ∃ ps, Spliced marks f.pieces ps ∧ st' = st.withFragment ⟨ps⟩ := by
  cases h with
  | same hf' => rw [hf] at hf'; cases hf'
  | @spliced f' ps hf' hps =>
    obtain rfl := Option.some.inj (hf.symm.trans hf')
    exact ⟨ps, hps, rfl⟩

theorem Respelled.isSynthesized (h : Respelled marks st st') :
    st'.isSynthesized = st.isSynthesized := by
  cases h with
  | same => rfl
  | spliced => exact isSynthesized_withFragment _ _

/-- One more insertion. -/
theorem Respelled.insertText {st'' : Statement} {m : Nat} (h : Respelled marks st st') (hm : marks m)
    (hins : st'.insertText? m exportPrefix = some st'') : Respelled marks st st'' := by
  obtain ⟨f, f', hf, hf', rfl⟩ := insertText?_eq_some hins
  cases h with
  | same hnone => rw [hf] at hnone; cases hnone
  | @spliced f0 ps hf0 hps =>
    obtain rfl := Option.some.inj (hf.symm.trans (fragment?_withFragment hf0 ⟨ps⟩))
    obtain ⟨ps', hps', rfl⟩ := Option.map_eq_some_iff.1 hf'
    rw [withFragment_withFragment hf0]
    exact .spliced hf0 (hps.insertIn hm hps')

end

end Statement

end ModuleForge
