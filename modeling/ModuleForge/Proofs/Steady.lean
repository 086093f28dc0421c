import ModuleForge.Proofs.ExportedTargets
import ModuleForge.Proofs.Woven

/-!
# Modules that stay readable

The CommonJS form of a steady module has no lexical errors, and starts with a line for the system that
runs it exactly if the module does. If nothing in the module can be mistaken for an item, the only
items in it are those that are left alone.

- `IsSteady`: what is asked of a module.
- `exists_run_of_targetAt`: the targets of assignments are names that an export may stand in front of.
- `ofSource_fine`: the tokens of the CommonJS form of a steady module.
-/

namespace ModuleForge

open Token Text Grammar

/-! ## The first line -/

/-- The text starts with a line for the system that runs it. -/
def hasHashbang (text : List Char) : Bool :=
  "#!".toList.isPrefixOf text

theorem eq_of_hasHashbang {text : List Char} (h : hasHashbang text = true) :
    ∃ tail, text = '#' :: '!' :: tail := by
  obtain ⟨tail, rfl⟩ := List.isPrefixOf_iff_prefix.1 h
  exact ⟨tail, rfl⟩

theorem skipHashbang_of_not {text : List Char} (h : hasHashbang text = false) :
    skipHashbang ⟨0, text⟩ = ⟨0, text⟩ := by
  refine skipHashbang_of_ne fun tail htext => ?_
  rw [htext] at h
  simp [hasHashbang] at h

/-- A line that starts with `#!` is an error where it is not the first. -/
theorem hasHashbang_of_clean {last : Option Kind} {pos : Nat} {text : List Char}
    (h : Kind.error ∉ (tokensFrom ⟨last, ⟨pos, text⟩⟩).map (·.kind)) : hasHashbang text = false := by
  rw [Bool.eq_false_iff]
  intro hbang
  obtain ⟨tail, rfl⟩ := eq_of_hasHashbang hbang
  refine h (List.mem_map.2 ⟨_, nextToken_mem _, @nextToken_hashbang _ tail ?_⟩)
  rw [Reader.ahead, skipTrivia_char (by simp) (by simp)]
  rfl

/-- **The line `h` comes before the tokens** of a text, which go on with `rest`. -/
structure FirstLine (h rest : List Char) : Prop where
  noFeed : '\n' ∉ h
  first : h = [] ∧ hasHashbang rest = false ∨
    hasHashbang h = true ∧ ∀ c, rest.head? = some c → c = '\n'

theorem FirstLine.hasHashbang {h rest : List Char} (hl : FirstLine h rest) :
    hasHashbang (h ++ rest) = !h.isEmpty := by
  rcases hl.first with ⟨rfl, hrest⟩ | ⟨hh, -⟩
  · exact hrest
  · obtain ⟨tail, rfl⟩ := eq_of_hasHashbang hh
    rfl

theorem FirstLine.skipHashbang {h rest : List Char} (hl : FirstLine h rest) :
    skipHashbang ⟨0, h ++ rest⟩ = ⟨byteLength h, rest⟩ := by
  rcases hl.first with ⟨rfl, hrest⟩ | ⟨hh, hfeed⟩
  · exact skipHashbang_of_not hrest
  · have hspan : Cursor.span (· != '\n') ⟨0, h ++ rest⟩ = (h, ⟨0 + byteLength h, rest⟩) := by
      refine span_append (fun d hd => ?_) (fun d hd => ?_) 0
      · rw [bne_iff_ne]
        rintro rfl
        exact hl.noFeed hd
      · rw [hfeed d hd]
        rfl
    have hskip : Token.skipHashbang ⟨0, h ++ rest⟩ = (Cursor.span (· != '\n') ⟨0, h ++ rest⟩).2 := by
      obtain ⟨tail, rfl⟩ := eq_of_hasHashbang hh
      rfl
    rw [hskip, hspan, Nat.zero_add]

theorem exists_firstLine (text : List Char) :
    ∃ h rest, text = h ++ rest ∧ FirstLine h rest := by
  cases hbang : hasHashbang text with
  | false => exact ⟨[], text, rfl, by simp, .inl ⟨rfl, hbang⟩⟩
  | true =>
    obtain ⟨hsplit, htaken, hstop⟩ := span_spec (· != '\n') ⟨0, text⟩
    refine ⟨_, _, hsplit, fun hmem => ?_, .inr ⟨?_, fun c hc => ?_⟩⟩
    · exact absurd (htaken _ hmem) (by simp)
    · obtain ⟨tail, rfl⟩ := eq_of_hasHashbang hbang
      rfl
    · simpa using hstop c hc

namespace CommonJs

variable {calm : Bool} {g h src x : List Char} {ss : List Statement} {marks : Nat → Prop}
    {p : Program} {r : Reader}

/-- The token at an index does not stand directly behind one that goes on with letters. -/
def standsApart (tokens : Array Token) (index : Nat) : Bool :=
  match Reassignment.before? tokens index, tokens[index]? with
  | some u, some t => u.span.stop != t.span.start || !u.kind.takesLetters
  | _, _ => true

/-- **What is asked of a module** for its CommonJS form to be fine. -/
structure IsSteady (calm : Bool) (source : String) (p : Program) : Prop where
  statements : ∀ st ∈ p.statements, st.IsWeavable calm source.toList
  lists : listsApart source.toList true p.statements = true
  /-- An export may stand in front of each assignment to a default function or class. -/
  assigned : ∀ name ∈ p.statements.flatMap defaultNames,
    ∀ i ∈ Reassignment.targets (scan source).toArray name,
      standsApart (scan source).toArray i = true
  /-- A word that ends the source has no escapes. -/
  ending : ∀ t ∈ scan source, t.kind.isOfWord = true → t.span.stop = byteLength source.toList →
    (t.span.text? source.toList).all (!·.contains '\\') = true

instance (calm : Bool) (source : String) (p : Program) : Decidable (IsSteady calm source p) :=
  decidable_of_iff
    ((∀ st ∈ p.statements, st.IsWeavable calm source.toList) ∧
      listsApart source.toList true p.statements = true ∧
      (∀ name ∈ p.statements.flatMap defaultNames,
        ∀ i ∈ Reassignment.targets (scan source).toArray name,
          standsApart (scan source).toArray i = true) ∧
      ∀ t ∈ scan source, t.kind.isOfWord = true → t.span.stop = byteLength source.toList →
        (t.span.text? source.toList).all (!·.contains '\\') = true)
    ⟨fun ⟨hss, hlists, hassigned, hend⟩ => ⟨hss, hlists, hassigned, hend⟩,
      fun ⟨hss, hlists, hassigned, hend⟩ => ⟨hss, hlists, hassigned, hend⟩⟩

theorem IsSteady.allBounded {source : String} (h : IsSteady calm source p) :
    Reader.AllBounded ⟨none, skipHashbang ⟨0, source.toList⟩⟩ := by
  intro ts r hruns hk hend
  obtain ⟨newline, cur, c, rest, htrivia, hrest, -, hpasses, hnext⟩ := nextToken_isOfWord hk
  have hmem : (nextToken r).1 ∈ scan source := by
    rw [scan, hruns.tokensFrom]
    exact List.mem_append_right _ (nextToken_mem r)
  have hreach : Cursor.Reaches ⟨0, source.toList⟩ cur :=
    ((skipHashbang_reaches _).trans hruns.reaches).trans (reaches_of_clear htrivia)
  obtain ⟨taken, htaken, hpos⟩ := hpasses.1
  rw [hnext] at hend
  have hahead : r.ahead = taken := by
    have htaken' := htaken
    rw [show (wordToken r.last cur).2.rest = [] from hend, List.append_nil] at htaken'
    rw [Reader.ahead, htrivia]
    exact htaken'
  have hlength : (wordToken r.last cur).2.pos = byteLength source.toList := by
    obtain ⟨before, hsrc, hpos'⟩ := hreach.trans hpasses.1
    rw [show (wordToken r.last cur).2.rest = [] from hend, List.append_nil] at hsrc
    rw [hpos', show source.toList = before from hsrc, Nat.zero_add]
  have htext := slice?_of_reaches hreach htaken hpos
  have hspan : (nextToken r).1.span = ⟨cur.pos, (wordToken r.last cur).2.pos⟩ := by
    rw [hnext]
    rfl
  have hescapes := h.ending _ hmem hk (by rw [hspan]; exact hlength)
  rw [hspan, Span.text?, htext, Option.all_some] at hescapes
  rw [hahead]
  simpa using hescapes

/-! ## Assignments to default exports -/

/-- **The tokens of a list are read one after another.** -/
theorem exists_runs_of_append {us vs : List Token} {t : Token} (h : tokensFrom r = us ++ t :: vs)
    (hclean : ∀ u ∈ us, u.kind ≠ .error) : ∃ q, Runs r us q ∧ (nextToken q).1 = t := by
  induction us generalizing r with
  | nil => exact ⟨r, .nil r, (tokensFrom_cons h).1⟩
  | cons u us ih =>
    obtain ⟨rfl, htail⟩ := tokensFrom_cons h
    obtain ⟨herr, hclean'⟩ := List.forall_mem_cons.1 hclean
    have heof : (nextToken r).1.kind ≠ .eof := by
      intro heof
      rw [tokensFrom_eq, if_pos heof] at h
      simp at h
    obtain ⟨q, hruns, hq⟩ := ih (htail heof) hclean'
    exact ⟨q, .cons herr heof hruns, hq⟩

theorem Runs.lastStop {r' : Reader} {ts : List Token} (h : Runs r ts r') (hne : ts ≠ []) :
    ts.getLast?.map (·.span.stop) = some r'.cursor.pos := by
  induction h with
  | nil => exact absurd rfl hne
  | @cons r r' ts herr heof h ih =>
    cases ts with
    | nil =>
      cases h
      obtain ⟨start, -, hcovers⟩ := nextToken_covers herr heof
      exact congrArg (some ∘ Span.stop) hcovers.span
    | cons t ts => rw [List.getLast?_cons_cons, ih (by simp)]

theorem isPoint_of_mem_targets {tokens : Array Token} {name : String} {i : Nat}
    (h : i ∈ Reassignment.targets tokens name) :
    isPoint (Reassignment.kindBefore? tokens i) = false := by
  obtain ⟨t, ht, -⟩ := isWord_of_mem_targetsFrom h
  obtain ⟨c, hc⟩ := Reassignment.exists_visits_of_mem_targets h
  have htarget := (Bool.and_eq_true_iff.1 ((hc.mem_targets_iff ht).1 h)).2
  rw [Bool.eq_false_iff]
  intro hpoint
  unfold isPoint at hpoint
  simp [Reassignment.isTarget, hpoint] at htarget

theorem before?_length {us vs : List Token} {t : Token} :
    Reassignment.before? (us ++ t :: vs).toArray us.length = us.getLast? := by
  unfold Reassignment.before?
  split
  · rename_i hlength
    rw [List.length_eq_zero_iff.1 hlength]
    rfl
  · rename_i hlength
    have hlt : us.length - 1 < us.length := by omega
    rw [List.getElem?_toArray, List.getElem?_append_left hlt, List.getLast?_eq_getElem?]

/-- **Where an assignment to a default export starts, a name does** that an export may stand in front
of. -/
theorem exists_run_of_targetAt {source : String} (hsteady : IsSteady calm source p)
    (hclean : ∀ t ∈ scan source, t.kind ≠ .error) {m : Nat}
    (h : TargetAt (scan source) p.statements m) :
    ∃ us q, Runs ⟨none, skipHashbang ⟨0, source.toList⟩⟩ us q ∧ q.forward.cursor.pos = m ∧
      (nextToken q).1.kind = .identifier ∧ isPoint q.last = false ∧
      (us ≠ [] → q.cursor.pos = m → q.last.all (!·.takesLetters) = true) := by
  obtain ⟨name, hname, i, hi, t, ht, rfl⟩ := h
  have happart := hsteady.assigned name hname i hi
  have hpoint := isPoint_of_mem_targets hi
  have hkind := (identifier_of_mem_targets hi ht).1
  rw [List.getElem?_toArray] at ht
  obtain ⟨hlt, hget⟩ := List.getElem?_eq_some_iff.1 ht
  obtain ⟨us, vs, hsplit, rfl⟩ : ∃ us vs, scan source = us ++ t :: vs ∧ us.length = i :=
    ⟨_, _, by rw [← hget, List.getElem_cons_drop, List.take_append_drop], by simp; omega⟩
  rw [standsApart, hsplit, before?_length, ← hsplit, List.getElem?_toArray, ht] at happart
  rw [Reassignment.kindBefore?, hsplit, before?_length] at hpoint
  obtain ⟨q, hruns, rfl⟩ := exists_runs_of_append hsplit fun u hu => hclean u (by simp [hsplit, hu])
  have hne : (nextToken q).1.kind ≠ .error ∧ (nextToken q).1.kind ≠ .eof := by simp [hkind]
  have hlast : q.last = us.getLast?.map (·.kind) := by
    by_cases hus : us = []
    · subst hus
      cases hruns
      rfl
    · exact hruns.last hus
  refine ⟨us, q, hruns, (span_start hne.1 hne.2).symm, hkind, by rw [hlast]; exact hpoint, ?_⟩
  intro hus hpos
  have hstop := Runs.lastStop hruns hus
  obtain ⟨u, hu⟩ : ∃ u, us.getLast? = some u := ⟨_, List.getLast?_eq_some_getLast hus⟩
  rw [hu, Option.map_some, Option.some.injEq] at hstop
  rw [hlast, hu]
  simpa [hu, hstop, hpos] using happart

theorem IsSteady.marked {source : String} (h : IsSteady calm source p)
    (hclean : ∀ t ∈ scan source, t.kind ≠ .error) :
    Reader.Marked (TargetAt (scan source) p.statements)
        ⟨none, skipHashbang ⟨0, source.toList⟩⟩ ∧
      ∀ m, TargetAt (scan source) p.statements m →
        (skipHashbang ⟨0, source.toList⟩).pos ≤ m := by
  refine ⟨fun m hm _ => exists_run_of_targetAt h hclean hm, fun m hm => ?_⟩
  obtain ⟨us, q, hruns, rfl, hkind, -⟩ := exists_run_of_targetAt h hclean hm
  have hle := (forward_pos_lt (r := q) (by simp [hkind]) (by simp [hkind])).1
  exact Nat.le_trans hruns.reaches.pos_le hle

theorem forall₂_replace {α β : Type} {R : α → β → Prop} {l : List α} {xs ys : List β} {b b' : β}
    (h : List.Forall₂ R l (xs ++ b :: ys)) (hb : ∀ a, R a b → R a b') :
    List.Forall₂ R l (xs ++ b' :: ys) := by
  induction xs generalizing l with
  | nil =>
    cases h with
    | cons hab h => exact .cons (hb _ hab) h
  | cons x xs ih =>
    cases h with
    | cons hax h => exact .cons hax (ih h)

/-- **The second pass puts exports in front of assignments** into what the first has given. -/
theorem lower_respelled (hp : p.Lists ss) (hk : ∀ st ∈ ss, st.KeywordInside) (tokens : List Token) :
    ∃ ss', (lower tokens p).Lists ss' ∧
      List.Forall₂ (Statement.Respelled (TargetAt tokens ss)) (moduleImage (.ofTokens tokens) ss)
        ss' := by
  refine lower_listsSome hp hk tokens (List.forall₂_same.2 fun st _ => .refl _ st) ?_
  intro xs ys s s' t i name hname hi ht hs hss
  exact forall₂_replace hss fun st hst => hst.insertText ⟨name, hname, i, hi, t, ht, rfl⟩ hs

/-! ## Whole modules -/

theorem weaves_closing {closing : List Statement} {helper : Option String}
    (hclosing : ∀ st ∈ closing, st.IsNice calm)
    (hhelper : ∀ name, helper = some name → IsBindingName name) (place : Reader) (apart : Bool)
    (last : Option Kind) :
    Weaves calm src marks place apart last (closing ++ helper.toList.map .interopHelper) := by
  have hend (place : Reader) (apart : Bool) (last : Option Kind) :
      Weaves calm src marks place apart last (helper.toList.map .interopHelper) := by
    cases hname : helper with
    | none => exact weaves_nil
    | some name =>
      refine @weaves_generated calm apart false src marks place place last [] _ ⟨rfl, rfl⟩ ?_ weaves_nil
      exact List.forall_mem_singleton.2 (niceName_of_isBindingName (hhelper name hname) calm)
  cases closing with
  | nil => exact hend place apart last
  | cons st closing => exact weaves_statements hclosing (by simp) (hend place false _)

theorem printFrom?_verbatim {f : Fragment} (h : f.render? src = some x) (before : Option Char)
    (ss : List Statement) :
    printFrom? src before (.verbatim f :: ss) =
      (printFrom? src (x.getLast?.or before) ss).map (x ++ ·) := by
  simp only [printFrom?, Statement.print?, h, Statement.isSynthesized, Bool.false_and,
    Bool.false_eq_true, if_false, Option.map_eq_bind]
  rfl

/-- **The first line is printed in front of the text behind it**, if nothing is put into it. -/
theorem printFrom?_firstLine {ss' : List Statement}
    (hmarks : ∀ m, marks m → IsBoundary (h ++ (x ++ g)) m)
    (hfirst : ∀ m, marks m → byteLength h ≤ m)
    (hss : List.Forall₂ (Statement.Respelled marks) (gap 0 (byteLength h + byteLength x) ++ ss) ss') :
    ∃ ss'', List.Forall₂ (Statement.Respelled marks)
        (gap (byteLength h) (byteLength h + byteLength x) ++ ss) ss'' ∧
      printFrom? (h ++ (x ++ g)) none ss' =
        (printFrom? (h ++ (x ++ g)) h.getLast? ss'').map (h ++ ·) := by
  by_cases hh : h = []
  · subst hh
    exact ⟨ss', hss, by simp⟩
  have hpos : 0 < byteLength h := byteLength_pos hh
  rw [gap, if_pos (Nat.add_pos_left hpos _)] at hss
  cases hss with
  | @cons _ st' _ ss' hst hss =>
    obtain ⟨ps, hps, rfl⟩ := hst.exists_pieces rfl
    have hline := slice?_append [] h (x ++ g)
    rw [byteLength_nil, Nat.zero_add, List.nil_append] at hline
    by_cases hx : x = []
    · -- No mark lies in the first line.
      subst hx
      obtain ⟨z, hins, hrender⟩ := hps.ofSpan hmarks hline
      obtain rfl : z = h := by
        rcases hins.eq_or_mark with rfl | ⟨m, hm, -, hlt⟩
        · rfl
        · rw [byteLength_nil, Nat.add_zero, Nat.zero_add] at hlt
          exact absurd (hfirst m hm) (Nat.not_le_of_lt hlt)
      refine ⟨ss', by simpa [gap_eq_nil] using hss, ?_⟩
      exact (printFrom?_verbatim hrender none ss').trans (by simp)
    · have hlt : byteLength h < byteLength h + byteLength x :=
        Nat.lt_add_of_pos_right (byteLength_pos hx)
      have htext := slice?_append h x g
      have hall := slice?_append [] (h ++ x) g
      rw [byteLength_nil, Nat.zero_add, byteLength_append, List.nil_append, List.append_assoc] at hall
      obtain ⟨ps', hps', hrender⟩ := hps.behind hmarks hfirst hpos hlt hline htext hall
      obtain ⟨z, hins, hz⟩ := hps'.ofSpan hmarks htext
      have hne := hins.ne_nil hx
      rw [gap, if_pos hlt]
      refine ⟨.verbatim ⟨ps'⟩ :: ss', .cons (.spliced rfl hps') hss, ?_⟩
      have hz' : Fragment.render? (h ++ (x ++ g)) ⟨ps⟩ = some (h ++ z) := by
        rw [Fragment.render?] at hz ⊢
        rw [hrender, hz, Option.map_some]
      refine (printFrom?_verbatim hz' none ss').trans ?_
      rw [printFrom?_verbatim hz, Option.map_map, List.getLast?_append,
        List.getLast?_eq_some_getLast hne]
      simp [Function.comp_def]

/-- The text behind the first line starts on a line of its own. -/
theorem firstLine_of_printed {out : List Char} {before : Option Char} {ss' : List Statement}
    {kind : Option Kind} (hline : FirstLine h (x ++ g)) (hrest : r.cursor.rest = x ++ g)
    (hpos : r.cursor.pos = byteLength h) (hmarked : r.Marked marks)
    (hmarks : ∀ m, marks m → IsBoundary (h ++ (x ++ g)) m) (hempty : h ≠ [] → x = [] → g = [])
    (hss : List.Forall₂ (Statement.Respelled marks)
      (gap (byteLength h) (byteLength h + byteLength x) ++ ss) ss')
    (hprint : printFrom? (h ++ (x ++ g)) before ss' = some out) (hfine : FineText calm kind out)
    (hmeets : h.isEmpty = true ∨ Meets r out) : FirstLine h out := by
  refine ⟨hline.noFeed, ?_⟩
  rcases hline.first with ⟨rfl, -⟩ | ⟨hbang, hfeed⟩
  · exact .inl ⟨rfl, hasHashbang_of_clean (hfine 0).clean⟩
  refine .inr ⟨hbang, ?_⟩
  have hne : h ≠ [] := by
    rintro rfl
    cases hbang
  by_cases hx : x = []
  · subst hx
    obtain rfl := hempty hne rfl
    rcases hmeets with hmeets | hout | ⟨hrest', -⟩ | ⟨-, ⟨c, hc, -⟩, -⟩
    · exact absurd (List.isEmpty_iff.1 hmeets) hne
    · exact hout
    · exact absurd hrest hrest'
    · rw [hrest] at hc
      cases hc
  · -- A line feed comes first, and nothing is put in front of it.
    have hlt : byteLength h < byteLength h + byteLength x :=
      Nat.lt_add_of_pos_right (byteLength_pos hx)
    rw [gap, if_pos hlt] at hss
    cases hss with
    | @cons _ st' _ ss' hst hss =>
      obtain ⟨ps, hps, rfl⟩ := hst.exists_pieces rfl
      obtain ⟨z, hins, hz⟩ := hps.ofSpan hmarks (slice?_append h x g)
      replace hprint := (printFrom?_verbatim hz before ss').symm.trans hprint
      obtain ⟨rest, -, rfl⟩ := Option.map_eq_some_iff.1 hprint
      obtain ⟨d, x, rfl⟩ := List.exists_cons_of_ne_nil hx
      obtain rfl := hfeed d rfl
      replace hins : Inserted marks r.cursor.pos ('\n' :: x) z := hpos ▸ hins
      have hhead := hins.head?_eq hmarked hrest rfl (by decide +kernel)
      intro c hc
      rw [List.head?_append, hhead, Option.some_or] at hc
      exact (Option.some.inj hc).symm

/-- **The text in front of the first item** may be taken to start behind the first line. -/
theorem course_rebase {lo : Nat} (h : Course src lo r ss) :
    ∃ x g rest, r.cursor.rest = x ++ g ∧ ss = gap lo (r.cursor.pos + byteLength x) ++ rest ∧
      Course src r.cursor.pos r (gap r.cursor.pos (r.cursor.pos + byteLength x) ++ rest) ∧
      (g = [] → rest = []) ∧ ∀ c, g.head? = some c → isBlank c = false := by
  cases h with
  | @done lo s r r' ts hs hruns hfree heof =>
    obtain ⟨before, hsrc, hpos⟩ := hs.reaches
    have hlength : byteLength src = r.cursor.pos + byteLength r.cursor.rest := by
      rw [show src = before ++ r.cursor.rest from hsrc, byteLength_append, hpos, Nat.zero_add]
    refine ⟨r.cursor.rest, [], [], (List.append_nil _).symm, ?_, ?_, fun _ => rfl, by simp⟩
    · rw [← hlength, List.append_nil]
    · rw [← hlength, List.append_nil]
      exact .done hs hruns hfree heof
  | @item lo s s1 s2 r r1 r2 ts st rest hs hruns hfree hat hs1 hitem hs2 hspan hcourse =>
    have hk := hs1.kind_of_atModuleItem hat
    obtain ⟨x, b, hx, -, -, -, hstart, -⟩ := exists_gap hs hruns hs1 hk
    obtain ⟨us, y, hy, -⟩ := excerpt_of_spans hs1 hs2
      ⟨consumes_moduleItem.1.ok hitem, consumes_moduleItem.2 hitem, rfl⟩
    refine ⟨x, r1.ahead, st :: rest, hx, by rw [hstart], ?_, fun hnil => ?_, fun c hc => ?_⟩
    · rw [← hstart]
      exact .item hs hruns hfree hat hs1 hitem hs2 hspan hcourse
    · rw [hy.ahead] at hnil
      exact absurd (List.append_eq_nil_iff.1 hnil).1 hy.text_ne_nil
    · have hofWord : (nextToken r1).1.kind.isOfWord = true := by
        rcases hk with hk | hk <;> rw [hk] <;> rfl
      rcases start_of_ahead hc hofWord with rfl | hstart
      · rfl
      · exact isBlank_of_start hstart

theorem isWeavable_gap {lo hi : Nat} : ∀ st ∈ gap lo hi, st.IsWeavable calm src := by
  intro st h
  obtain rfl := mem_gap h
  exact ⟨by simp [Statement.keptNames], fun h => (by cases h), fun _ h => (by cases h)⟩

theorem listsApart_rebase
    (hlists : listsApart (h ++ (x ++ g)) true (gap 0 (byteLength h + byteLength x) ++ ss) = true)
    (hnil : h ≠ [] → x = [] → ss = []) :
    listsApart (h ++ (x ++ g)) h.isEmpty
      (gap (byteLength h) (byteLength h + byteLength x) ++ ss) = true := by
  cases h with
  | nil => simpa using hlists
  | cons c h =>
    cases x with
    | nil =>
      rw [hnil (by simp) rfl, byteLength_nil, Nat.add_zero, gap_eq_nil]
      rfl
    | cons d x =>
      have hall := slice?_append [] (c :: h ++ d :: x) g
      rw [byteLength_nil, Nat.zero_add, byteLength_append, List.nil_append, List.append_assoc] at hall
      have hlt : byteLength (c :: h) < byteLength (c :: h) + byteLength (d :: x) :=
        Nat.lt_add_of_pos_right (byteLength_pos (List.cons_ne_nil d x))
      rw [listsApart_gap (Nat.add_pos_left (byteLength_pos (List.cons_ne_nil c h)) _) hall,
        List.getLast?_append, List.getLast?_eq_some_getLast (by simp : d :: x ≠ []),
        Option.some_or] at hlists
      rw [listsApart_gap hlt (slice?_append (c :: h) (d :: x) g),
        List.getLast?_eq_some_getLast (by simp : d :: x ≠ [])]
      exact hlists

/-- **The CommonJS form of a steady module is fine**, and starts with a line for the system that runs
it if the module does. -/
theorem ofSource_fine {source : String} (hparse : parse source = .ok p) (h : IsSteady calm source p) :
    ∃ code, ofSource source = .ok code ∧ FineTokens calm (scan code) ∧
      hasHashbang code.toList = hasHashbang source.toList := by
  obtain ⟨ss, hp, hc⟩ := parse_covers hparse
  have hcourse := parse_course hparse
  have hbounded := h.allBounded
  obtain ⟨hmarked, hfirst⟩ := h.marked (ne_error_of_parse hparse)
  obtain ⟨hstatements, hlists, -, -⟩ := h
  rw [hp.statements] at hcourse hstatements hlists hmarked hfirst
  have hmarks (m : Nat) (hm : TargetAt (scan source) ss m) : IsBoundary source.toList m := by
    obtain ⟨-, -, i, -, t, ht, rfl⟩ := hm
    exact (scan_laid source).boundary (List.mem_of_getElem? (List.getElem?_toArray ▸ ht))
  obtain ⟨ss', hlower, hrespelled⟩ := lower_respelled hp hc.keywordInside (scan source)
  generalize TargetAt (scan source) ss = marks at hmarked hfirst hmarks hrespelled
  obtain ⟨line, rest, hsrc, hline⟩ := exists_firstLine source.toList
  rw [hsrc, hline.skipHashbang] at hbounded hcourse hmarked hfirst
  obtain ⟨x, g, tail, hrest, rfl, hcourse', hnil, hblank⟩ := course_rebase hcourse
  replace hrest : rest = x ++ g := hrest
  subst hrest
  -- Where the first line is all there is, nothing follows it.
  have hempty : line ≠ [] → x = [] → g = [] := by
    rintro hne rfl
    cases hg : g with
    | nil => rfl
    | cons c g' =>
      rcases hline.first with ⟨rfl, -⟩ | ⟨-, hfeed⟩
      · exact absurd rfl hne
      · have := hblank c (by rw [hg]; rfl)
        rw [hfeed c (by rw [hg]; rfl)] at this
        cases this
  let c : Carry := { names := .ofTokens (scan source) }
  have hnamed : c.IsNamed := nofun
  let ss := gap 0 (byteLength line + byteLength x) ++ tail
  let closing := ss.flatMap localExports ++
    (translateAll c ss).2.helper.toList.map Statement.interopHelper
  have hclosing (place : Reader) (apart : Bool) (last : Option Kind) :
      Weaves calm source.toList marks place apart last closing := by
    refine weaves_closing (fun st hst => ?_) (isNamed_translateAll hnamed ss) place apart last
    obtain ⟨st', hst', hmem⟩ := List.mem_flatMap.1 hst
    exact isNice_localExports (hstatements st' hst').names st hmem
  rw [hsrc] at hclosing hlists hstatements hmarks
  have hweaves := weaves_course hclosing hcourse' rfl ⟨hbounded, hmarked, hmarks⟩ (fun _ => rfl)
    (List.forall_mem_append.2 ⟨isWeavable_gap, (List.forall_mem_append.1 hstatements).2⟩)
    (listsApart_rebase hlists fun hne hx => hnil (hempty hne hx)) (follows_refl _) hnamed
  have hbefore : line.getLast?.any (· != '\n') = true ∨ line.isEmpty = true := by
    cases hlast : line.getLast? with
    | none => exact .inr (by simpa using hlast)
    | some d =>
      refine .inl (bne_iff_ne.2 ?_)
      rintro rfl
      exact hline.noFeed (List.mem_of_getLast? hlast)
  have himage : moduleImage (.ofTokens (scan source)) ss =
      gap 0 (byteLength line + byteLength x) ++ ((translateAll c tail).1 ++ closing) := by
    have himages : (translateAll c ss).1 = _ := translateAll_gap c 0 _ tail
    simp only [moduleImage, closing, ← List.append_assoc, ← himages]
    rfl
  rw [himage] at hrespelled
  obtain ⟨ss'', hss'', hprints⟩ := printFrom?_firstLine hmarks hfirst hrespelled
  rw [translateAll_gap, List.append_assoc] at hweaves
  obtain ⟨out, hprint, hfine, hmeets⟩ := hweaves ss'' hss'' line.getLast? hbefore
  have hcode : ofSource source = .ok (String.ofList (line ++ out)) := by
    refine ofSource_eq_ok_iff.2 ⟨p, hparse, ?_⟩
    rw [Program.generate?, hlower.statements, String.toList_ofList, hsrc, hprints, hprint]
    rfl
  have hout := firstLine_of_printed hline rfl rfl hmarked hmarks hempty hss'' hprint hfine hmeets
  refine ⟨_, hcode, ?_, ?_⟩
  · rw [scan, String.toList_ofList, hout.skipHashbang]
    exact hfine _
  · rw [String.toList_ofList, hout.hasHashbang, hsrc, hline.hasHashbang]

end CommonJs

end ModuleForge
