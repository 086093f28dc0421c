import ModuleForge.Proofs.Weaving

/-!
# The text of a lowered module

The CommonJS form of a module is read without errors, if generated code can take over its names, a
slash behind a module item means the same behind the code for it, and what is left where a list of
exports stood does not grow together. Under similar conditions the only module items in it are those
that are left alone.

- `Statement.IsWeavable`, `listsApart`: what is asked of the statements of a module.
- `weaves_item`: what stands for a module item.
- `weaves_course`: what stands for a whole module, by induction over how it was read.
-/

namespace ModuleForge

open Token Text Grammar

/-! ## What is asked of a module -/

namespace Statement

/-- The names that generated code takes over from a module item. -/
def keptNames : Statement → List String
  | importFrom decl => decl.specifiers.map (·.binding.name)
  | exportNamed ⟨specifiers, none, _⟩ => specifiers.map (·.inner.text)
  | exportDecl decl => decl.names.map (·.name)
  | exportDefault (.decl _ (some name) _ _ _) => [name.name]
  | _ => []

/-- A list of exports without a module. -/
def isLocalList : Statement → Bool
  | exportNamed ⟨_, none, _⟩ => true
  | _ => false

/-- The source from the end of a module item on. -/
def cursorBehind (src : List Char) (st : Statement) : Cursor :=
  match st.sourceSpan? with
  | some span => ⟨span.stop, ((splitBytes? span.stop src).map (·.2)).getD []⟩
  | none => ⟨0, []⟩

/-- A semicolon ends the text of a module item. -/
def endsWithSemicolon (src : List Char) (st : Statement) : Bool :=
  (st.sourceSpan?.bind (·.text? src)).any fun text => text.getLast? == some ';'

/-- What follows a module item starts with a slash, which may be a division or not. -/
def meetsSlash (src : List Char) (st : Statement) : Bool :=
  (Reader.ahead ⟨none, st.cursorBehind src⟩).head? == some '/' &&
    (st.isLocalList || !st.endsWithSemicolon src)

/-- No module item starts in the part of the item that is kept, read by itself. -/
def keepsNoItem (src : List Char) (st : Statement) : Bool :=
  (st.keptSpan?.bind (·.text? src)).all fun text =>
    itemFree 0 ((scan (String.ofList text)).map (·.kind))

/-- The item is one line without functions and classes that a semicolon ends, and no module item starts
in it where it stands in brackets. -/
def isSealed (src : List Char) (st : Statement) : Bool :=
  st.endsWithSemicolon src && (st.sourceSpan?.bind (·.text? src)).all fun text =>
    (scan (String.ofList text)).all isInline && itemFree 1 ((scan (String.ofList text)).map (·.kind))

/-- **What is asked of a statement** for its code to be fine. -/
structure IsWeavable (calm : Bool) (src : List Char) (st : Statement) : Prop where
  names : ∀ n ∈ st.keptNames, NiceName calm n
  slash : st.isLeftAlone = false → st.meetsSlash src = false
  calm : calm = true → st.isVerbatim = false →
    (st.isDynamic = true → st.isSealed src = true) ∧ st.keepsNoItem src = true

instance (calm : Bool) (src : List Char) (st : Statement) : Decidable (st.IsWeavable calm src) :=
  decidable_of_iff
    ((∀ n ∈ st.keptNames, NiceName calm n) ∧ (st.isLeftAlone = false → st.meetsSlash src = false) ∧
      (calm = true → st.isVerbatim = false →
        (st.isDynamic = true → st.isSealed src = true) ∧ st.keepsNoItem src = true))
    ⟨fun ⟨hnames, hslash, hcalm⟩ => ⟨hnames, hslash, hcalm⟩,
      fun ⟨hnames, hslash, hcalm⟩ => ⟨hnames, hslash, hcalm⟩⟩

end Statement

/-- **Each list of local names stands apart**: there is a blank before it, or a mark or a blank behind
it. A blank comes first if `apart`. -/
def listsApart (src : List Char) : Bool → List Statement → Bool
  | _, [] => true
  | _, .verbatim f :: rest => listsApart src ((f.render? src).any (·.getLast?.any isBlank)) rest
  | apart, st :: rest =>
    if st.isLocalList then
      (apart || (st.cursorBehind src).rest.head?.all stops) && listsApart src apart rest
    else listsApart src false rest

/-! ## The code for a module item -/

namespace CommonJs

variable {calm : Bool} {c : Carry} {value : Expr} {st : Statement}

theorem isNice_mark (c : Carry) : ∀ st ∈ c.mark, st.IsNice calm := by
  intro st h
  obtain rfl := Carry.eq_of_mem_mark h
  exact Statement.isNice ⟨rfl, rfl⟩ nofun (by simp [Statement.names])

theorem isNice_exportAssign {exported : String} (hvalue : ∀ f, value ≠ .source f)
    (hnames : ∀ n ∈ value.names, NiceName calm n) :
    Statement.IsNice calm (.exportAssign exported value) := by
  refine Statement.isNice ⟨rfl, ?_⟩ nofun hnames
  cases value with
  | source f => exact absurd rfl (hvalue f)
  | _ => rfl

theorem isNice_varBinding {name : String} (hvalue : ∀ f, value ≠ .source f)
    (hname : NiceName calm name) (hnames : ∀ n ∈ value.names, NiceName calm n) :
    Statement.IsNice calm (.varBinding name value) := by
  refine Statement.isNice ⟨rfl, ?_⟩ nofun (List.forall_mem_cons.2 ⟨hname, hnames⟩)
  cases value with
  | source f => exact absurd rfl (hvalue f)
  | _ => rfl

theorem isNice_require {binding source : String} (hbinding : IsBindingName binding) :
    Statement.IsNice calm (.require (some binding) source) :=
  Statement.isNice ⟨rfl, rfl⟩ nofun (by
    simpa [Statement.names] using niceName_of_isBindingName hbinding calm)

theorem isNice_exportAsDefault {name : String} (h : NiceName calm name) :
    (exportAsDefault name).IsNice calm :=
  isNice_exportAssign nofun (by simpa [Expr.names] using h)

theorem isNice_bindSpecifier {helper binding : String} {spec : ImportSpecifier}
    (hhelper : IsBindingName helper) (hbinding : IsBindingName binding)
    (hspec : NiceName calm spec.binding.name) : (bindSpecifier helper binding spec).IsNice calm := by
  have hhelper' := niceName_of_isBindingName hhelper calm
  have hbinding' := niceName_of_isBindingName hbinding calm
  cases spec with
  | default n | «namespace» n | named imported n =>
    exact isNice_varBinding (by simp) hspec (by simp [Expr.names, hhelper', hbinding'])

/-- **The code for an item that loads a module** is generated. -/
theorem isNice_translate {source : String} (h : st.loaded? = some source)
    (hnames : ∀ n ∈ st.keptNames, NiceName calm n) (hc : c.IsNamed) :
    (translate c st).1 ≠ [] ∧ ∀ st' ∈ (translate c st).1, st'.IsNice calm := by
  have hbinding : IsBindingName (c.name (bindingBase source)) :=
    (isBindingName_bindingBase source).fresh c.names
  have hnice := niceName_of_isBindingName hbinding calm
  have hmarked {image : List Statement} (hne : image ≠ []) (himage : ∀ st' ∈ image, st'.IsNice calm) :
      c.mark ++ image ≠ [] ∧ ∀ st' ∈ c.mark ++ image, st'.IsNice calm :=
    ⟨by simp [hne], List.forall_mem_append.2 ⟨isNice_mark c, himage⟩⟩
  cases st with
  | importFrom decl =>
    obtain ⟨specifiers, literal | _, span⟩ := decl
    · obtain rfl := Option.some.inj h
      cases specifiers with
      | nil =>
        refine ⟨by simp [translate], List.forall_mem_singleton.2 ?_⟩
        exact Statement.isNice ⟨rfl, rfl⟩ (by simp) (by simp [Statement.names])
      | cons spec specifiers =>
        have hc' : (c.take (bindingBase literal)).IsNamed := hc
        refine ⟨by simp [translate], List.forall_mem_cons.2 ⟨isNice_require hbinding, ?_⟩⟩
        refine List.forall_mem_map.2 fun spec' hspec => ?_
        exact isNice_bindSpecifier hc'.helperName hbinding
          (hnames _ (List.mem_map_of_mem hspec))
    · cases h
  | exportAll decl =>
    obtain ⟨literal | _, asName, span⟩ := decl
    · obtain rfl := Option.some.inj h
      cases asName with
      | none =>
        have hkeys : Statement.IsNice calm (.exportAllKeys (c.name (bindingBase literal))) :=
          Statement.isNice ⟨rfl, rfl⟩ (by simp) (by simpa [Statement.names] using hnice)
        exact hmarked (by simp)
          (List.forall_mem_cons.2 ⟨isNice_require hbinding, List.forall_mem_singleton.2 hkeys⟩)
      | some name =>
        exact hmarked (by simp)
          (List.forall_mem_singleton.2 (isNice_exportAssign (by simp) (by simp [Expr.names])))
    · cases h
  | exportNamed decl =>
    obtain ⟨specifiers, _ | literal | _, span⟩ := decl
    · cases h
    · obtain rfl := Option.some.inj h
      refine hmarked (by simp) (List.forall_mem_cons.2 ⟨isNice_require hbinding, ?_⟩)
      exact List.forall_mem_map.2 fun spec _ =>
        isNice_exportAssign (by simp) (by simpa [Expr.names] using hnice)
    · cases h
  | _ => cases h

theorem isNamed_translate (hc : c.IsNamed) (st : Statement) : (translate c st).2.IsNamed := by
  unfold translate
  split
  case h_2 =>
    dsimp only
    split
    · exact Carry.IsNamed.needHelper hc
    · exact hc
  all_goals exact hc

theorem isNamed_translateAll (hc : c.IsNamed) (ss : List Statement) :
    (translateAll c ss).2.IsNamed := by
  induction ss generalizing c with
  | nil => exact hc
  | cons st ss ih => exact ih (isNamed_translate hc st)

theorem isNice_localExports (hnames : ∀ n ∈ st.keptNames, NiceName calm n) :
    ∀ st' ∈ localExports st, st'.IsNice calm := by
  unfold localExports
  split
  · refine List.forall_mem_map.2 fun spec hspec => isNice_exportAssign nofun ?_
    have := hnames _ (List.mem_map_of_mem hspec)
    simpa [Expr.names] using this
  · simp

section
variable {apart : Bool} {src x y : List Char} {marks : Nat → Prop} {place r place' : Reader}
    {last : Option Kind} {ss gs : List Statement} {st : Statement} {s1 s2 s s' : Tokens}
    {r1 r2 : Reader} {c : Carry} {ts : List Token} {lo : Nat}

theorem weaves_mark (hpoint : isPoint last = false)
    (h : ∀ last', isPoint last' = false → Weaves calm src marks place apart last' ss) :
    Weaves calm src marks place apart last (c.mark ++ ss) := by
  cases hmark : c.mark with
  | nil => exact h last hpoint
  | cons st rest =>
    rw [← hmark]
    exact weaves_statements (isNice_mark c) (by simp [hmark]) (h (some .semicolon) rfl)

theorem weaves_localList (h : Weaves calm src marks place' apart last ss)
    (hplace : place.cursor.rest ≠ []) (hstop : apart = true ∨ Stopped place'.cursor.rest) :
    Weaves calm src marks place apart last ss := by
  intro ss' hss before hbefore
  obtain ⟨out, hprint, hfine, hmeets⟩ := h ss' hss before hbefore
  refine ⟨out, hprint, hfine, ?_⟩
  rcases hmeets with hapart | hmeets
  · exact .inl hapart
  · exact hstop.imp id fun hstop =>
      .inr (.inl ⟨hplace, agree_of_stops (hmeets.stopped hstop) _⟩)

/-- The place counts only by what follows and by the token before it. -/
theorem weaves_congr (h : Weaves calm src marks place' apart last ss)
    (hrest : place'.cursor.rest = place.cursor.rest) (hlast : place'.last = place.last) :
    Weaves calm src marks place apart last ss := by
  intro ss' hss before hbefore
  obtain ⟨out, hprint, hfine, hmeets⟩ := h ss' hss before hbefore
  refine ⟨out, hprint, hfine, hmeets.imp id fun hmeets => ?_⟩
  rwa [Meets, hrest, hlast] at hmeets

/-- An excerpt of an item, and the reader behind the item. -/
theorem excerpt_of_spans {span : Span} (hs : Stands src s r) (hs2 : Stands src s2 r2)
    (hspan : Spans span s s2) : ∃ ts x, Excerpt r ts r2 x ∧ span.text? src = some x := by
  obtain ⟨ts, r', x, hx, hs', htext⟩ := exists_excerpt hs hspan
  obtain rfl := hs2.unique hs' (before_ne_none hspan.reaches hspan.left_lt)
  exact ⟨ts, x, hx, htext⟩

/-- What is kept of an item is fine if no item starts in it. -/
theorem fine_kept {span : Span} {r' : Reader} (hst : st.IsWeavable calm src)
    (hverbatim : st.isVerbatim = false) (hkept : st.keptSpan? = some span)
    (htext : span.text? src = some x) (hx : Excerpt r ts r' x) (hb : r.AllBounded)
    (hlast : SameNext r none) : Fine calm (ts.map (·.kind)) := by
  refine .of_runs hx.runs fun hc => itemFree_of_eof ?_
  have hfree := (hst.calm hc hverbatim).2
  rw [Statement.keepsNoItem, hkept, Option.bind_some, htext, Option.all_some,
    hx.scan_kinds hb hlast] at hfree
  exact hfree

theorem isPoint_of_opens (h : Opens s1 s) (hs : Stands src s r) : isPoint r.last = false := by
  rw [← hs.lastKind]
  rcases h.lastKind with h | h <;> rw [h] <;> rfl

/-- The kinds that may stand before what follows an item. -/
def ClosesItem (st : Statement) (r : Reader) (last : Option Kind) : Prop :=
  isPoint last = false ∧ (st.isLocalList = false → regexAllowed last = true ∨ last = r.last)

/-- **The declaration of an item, and generated statements behind it.** -/
theorem weaves_itemDeclaration {kind : DeclKind} {span : Span} (hst : st.IsWeavable calm src)
    (hverbatim : st.isVerbatim = false) (hkept : st.keptSpan? = some span) (hr : Ready src marks r1)
    (hs1 : Stands src s1 r1) (hs2 : Stands src s2 r2) (hopens : Opens s1 s)
    (hword : s.current.kind.isOfWord = true) (hspan : Spans span s s2)
    (hkind : kind ≠ .var → isPoint s2.lastKind = false) (hgs : ∀ st ∈ gs, st.IsNice calm)
    (hrest : ∀ last', ClosesItem st r2 last' → Weaves calm src marks r2 false last' ss)
    (hpoint : isPoint last = false) :
    Weaves calm src marks place apart last (.declaration kind (.ofSpan span) :: (gs ++ ss)) := by
  obtain ⟨us, r, hruns, hs, -⟩ := hs1.runs hopens.reaches
  obtain ⟨ts, x, hx, htext⟩ := excerpt_of_spans hs hs2 hspan
  have hr' := hr.of_runs hruns
  have hbehind := isPoint_of_opens hopens hs
  rw [hs.current] at hword
  have hfine := fine_kept hst hverbatim hkept htext hx hr'.bounded
    (sameNext_of_isOfWord hword hbehind rfl)
  refine weaves_declaration hx htext (hx.start_eq hs hspan) hr' hfine
    (sameNext_of_isOfWord hword hbehind hpoint) ?_ ?_
  · rw [← hs2.lastKind]
    exact hkind
  · intro last' hlast' hregex
    cases gs with
    | nil => exact hrest last' ⟨hlast', fun _ => hregex⟩
    | cons st' gs =>
      exact weaves_statements hgs (by simp) (hrest (some .semicolon) ⟨rfl, fun _ => .inl rfl⟩)

/-- **A default function or class that gets a name**, with nothing behind it or the export. -/
theorem weaves_itemNamed {kind : DeclKind} {start stop keywordEnd : Nat} {span : Span}
    {name : String} (hname : IsBindingName name) (hst : Statement.IsWeavable calm src
      (.exportDefault (.decl kind none ⟨start, stop⟩ keywordEnd span))) (hr : Ready src marks r1)
    (hs1 : Stands src s1 r1) (hs2 : Stands src s2 r2) (hopens : Opens s1 s)
    (hword : s.current.kind.isOfWord = true) (hspan : Spans ⟨start, keywordEnd⟩ s s')
    (hkeyword : AfterKeyword s') (hreach : s'.Reaches s2) (hlt : s2.left < s'.left)
    (hstop : stop = s2.lastEnd) (hkind : kind ≠ .var) (hgs : ∀ st ∈ gs, st.IsNice calm)
    (hrest : Weaves calm src marks r2 false (if gs = [] then r2.last else some .semicolon) ss)
    (hpoint : isPoint last = false) :
    Weaves calm src marks place apart last
      (.declaration kind (namedText ⟨start, stop⟩ keywordEnd name) :: (gs ++ ss)) := by
  obtain ⟨us, r, hruns, hs, -⟩ := hs1.runs hopens.reaches
  obtain ⟨ts, r', x, hx, hs', htext⟩ := exists_excerpt hs hspan
  obtain ⟨vs, y, hy, -⟩ := excerpt_of_spans hs' hs2 ⟨hreach, hlt, rfl⟩
  obtain ⟨b, hrest', hblanks⟩ := hy.rest
  have hr' := hr.of_runs hruns
  have hbehind := isPoint_of_opens hopens hs
  rw [hs.current] at hword
  -- The text of the whole declaration is that of its two parts.
  have hend : keywordEnd = r'.cursor.pos := by
    rw [← hs'.lastEnd (before_ne_none hspan.reaches hspan.left_lt)]
    exact congrArg Span.stop hspan.eq
  have hstop' : stop = r2.cursor.pos := by
    rw [hstop, hs2.lastEnd (before_ne_none hreach hlt)]
  have htext' : Span.text? ⟨keywordEnd, stop⟩ src = some (b ++ y) := by
    obtain ⟨taken, htaken, hpos⟩ := hy.runs.reaches
    obtain rfl : b ++ y = taken := by
      refine List.append_cancel_right (?_ : _ ++ r2.cursor.rest = _ ++ r2.cursor.rest)
      rw [← htaken, hrest', List.append_assoc]
    rw [hend, hstop']
    exact slice?_of_reaches hs'.reaches htaken hpos
  have hwhole := hx.append hy hrest'
  obtain ⟨ws, z, hz, hzt⟩ := excerpt_of_spans hs hs2
    ⟨hspan.reaches.trans hreach, Nat.lt_trans hlt hspan.left_lt, rfl⟩
  obtain rfl : x ++ (b ++ y) = z := by
    refine List.append_cancel_right (?_ : _ ++ r2.cursor.rest = _ ++ r2.cursor.rest)
    rw [← hwhole.ahead, ← hz.ahead]
  have hstart : start = s.current.span.start := congrArg Span.start hspan.eq
  rw [← hstart, ← hstop] at hzt
  have hfine := fine_kept hst rfl rfl hzt hwhole hr'.bounded
    (sameNext_of_isOfWord hword hbehind rfl)
  rw [List.map_append] at hfine
  obtain ⟨himport, hnext, hends⟩ := hkeyword.follows hs' hx.runs hx.ne_nil hy hrest' hblanks
  have hstart' : start = r.forward.cursor.pos := hx.start_eq hs hspan
  refine weaves_named hname hx htext hstart' hend hy hrest' htext' hr' hfine
    (sameNext_of_isOfWord hword hbehind hpoint) himport hnext hends hkind ?_
  cases gs with
  | nil => exact hrest
  | cons st' gs => exact weaves_statements hgs (by simp) hrest

/-- **A default expression, kept under a name**, and its export. -/
theorem weaves_itemExpr {e span : Span} {name : String} (hname : NiceName calm name)
    (hst : Statement.IsWeavable calm src (.exportDefault (.expr e span))) (hr : Ready src marks r1)
    (hs1 : Stands src s1 r1) (hopens : Opens s1 s) (hlast : s.lastKind = some .kwDefault)
    (hspan : Spans e s s') (hsemi : Weaves calm src marks r2 false (some .semicolon) ss) :
    Weaves calm src marks place apart last
      (.varBinding name (.source (.ofSpan e)) :: exportAsDefault name :: ss) := by
  obtain ⟨us, r, hruns, hs, -⟩ := hs1.runs hopens.reaches
  obtain ⟨ts, r', x, hx, -, htext⟩ := exists_excerpt hs hspan
  have hr' := hr.of_runs hruns
  rw [hs.lastKind] at hlast
  have hsame {kind : Option Kind} (hregex : regexAllowed kind = true)
      (hkind : isPoint kind = false) : SameNext r kind := by
    intro d _
    rw [hlast]
    exact ⟨fun _ => hregex.symm, fun _ => hkind.symm⟩
  have hfine := fine_kept hst rfl rfl htext hx hr'.bounded (hsame rfl rfl)
  have hexport : Weaves calm src marks place apart (some .semicolon) ([exportAsDefault name] ++ ss) :=
    weaves_statements (List.forall_mem_singleton.2 (isNice_exportAsDefault hname)) (by simp) hsemi
  exact weaves_expr hname hx htext (hx.start_eq hs hspan) hr' hfine (hsame rfl rfl) hexport

/-- **What stands for a module item** is fine if what follows it is. -/
theorem weaves_item (hc : c.IsNamed) (hst : st.IsWeavable calm src)
    (halone : st.isLeftAlone = false) (hr : Ready src marks r1) (hs1 : Stands src s1 r1)
    (hs2 : Stands src s2 r2)
    (hshape : Shape s1 s2 st) (hplace : place.cursor.rest ≠ [])
    (happart : st.isLocalList = true → apart = true ∨ Stopped r2.cursor.rest)
    (hrest : ∀ last', ClosesItem st r2 last' →
      Weaves calm src marks r2 (st.isLocalList && apart) last' ss) (hpoint : isPoint last = false) :
    Weaves calm src marks place apart last ((translate c st).1 ++ ss) := by
  have hsemi := hrest (some .semicolon) ⟨rfl, fun _ => .inl rfl⟩
  have hloaded {source : String} (h : st.loaded? = some source) :
      Weaves calm src marks place apart last ((translate c st).1 ++ ss) := by
    obtain ⟨hne, hnice⟩ := isNice_translate h hst.names hc
    exact weaves_statements hnice hne hsemi
  have hdefault : IsBindingName (c.name defaultBase) := isBindingName_defaultBase.fresh c.names
  have hdefault' := niceName_of_isBindingName hdefault calm
  cases hshape with
  | importFrom decl =>
    obtain ⟨specifiers, literal | _, span⟩ := decl
    · exact hloaded rfl
    · cases halone
  | exportAll decl =>
    obtain ⟨literal | _, asName, span⟩ := decl
    · exact hloaded rfl
    · cases halone
  | exportNamed decl =>
    obtain ⟨specifiers, _ | literal | _, span⟩ := decl
    · refine weaves_mark hpoint fun last' hlast' => ?_
      exact weaves_localList (hrest last' ⟨hlast', nofun⟩) hplace (happart rfl)
    · exact hloaded rfl
    · cases halone
  | @exportDecl decl s hopens hword hspan hkind =>
    have hnames : ∀ st' ∈ decl.names.map fun n => Statement.exportAssign n.name (.ident n.name),
        st'.IsNice calm :=
      List.forall_mem_map.2 fun n hn => isNice_exportAssign nofun (by
        simpa [Expr.names] using hst.names _ (List.mem_map_of_mem hn))
    rw [translate, List.append_assoc]
    exact weaves_mark hpoint fun last' hlast' =>
      weaves_itemDeclaration hst rfl rfl hr hs1 hs2 hopens hword hspan hkind hnames hrest hlast'
  | @named kind name decl span keywordEnd s hopens hword hspan hlast hkind =>
    have hname : (exportAsDefault name.name).IsNice calm :=
      isNice_exportAsDefault (hst.names _ (by simp [Statement.keptNames]))
    cases kind with
    | var => exact absurd rfl hkind
    | «class» =>
      rw [translate, List.append_assoc]
      exact weaves_mark hpoint fun last' hlast' =>
        weaves_itemDeclaration hst rfl rfl hr hs1 hs2 hopens hword hspan (fun _ => hlast)
          (List.forall_mem_singleton.2 hname) hrest hlast'
    | function =>
      have himage : (translate c (.exportDefault (.decl .function (some name) decl keywordEnd span))).1
          ++ ss = c.mark ++ ([exportAsDefault name.name] ++
            .declaration .function (.ofSpan decl) :: ([] ++ ss)) := by
        simp [translate]
      have hdecl : Weaves calm src marks place apart (some .semicolon)
          (.declaration .function (.ofSpan decl) :: ([] ++ ss)) :=
        weaves_itemDeclaration hst rfl rfl hr hs1 hs2 hopens hword hspan (fun _ => hlast)
          (by simp) hrest rfl
      rw [himage]
      exact weaves_mark hpoint fun last' _ =>
        weaves_statements (List.forall_mem_singleton.2 hname) (by simp) hdecl
  | @unnamed kind start stop keywordEnd span s s' hopens hword hspan hkeyword hreach hlt hstop hlast
      hkind =>
    cases kind with
    | var => exact absurd rfl hkind
    | «class» =>
      rw [translate, List.append_assoc]
      exact weaves_mark hpoint fun last' hlast' =>
        weaves_itemNamed hdefault hst hr hs1 hs2 hopens hword hspan hkeyword hreach hlt hstop hkind
          (List.forall_mem_singleton.2 (isNice_exportAsDefault hdefault')) hsemi hlast'
    | function =>
      have himage : (translate c (.exportDefault
          (.decl .function none ⟨start, stop⟩ keywordEnd span))).1 ++ ss =
          c.mark ++ ([exportAsDefault (c.name defaultBase)] ++ .declaration .function
            (namedText ⟨start, stop⟩ keywordEnd (c.name defaultBase)) :: ([] ++ ss)) := by
        simp [translate]
      have hdecl : Weaves calm src marks place apart (some .semicolon) (.declaration .function
          (namedText ⟨start, stop⟩ keywordEnd (c.name defaultBase)) :: ([] ++ ss)) := by
        refine weaves_itemNamed hdefault hst hr hs1 hs2 hopens hword hspan hkeyword hreach hlt hstop
          hkind (by simp) (hrest _ ⟨?_, fun _ => .inr rfl⟩) rfl
        rw [if_pos rfl, ← hs2.lastKind]
        exact hlast
      rw [himage]
      exact weaves_mark hpoint fun last' _ => weaves_statements
        (List.forall_mem_singleton.2 (isNice_exportAsDefault hdefault')) (by simp) hdecl
  | @expr e span s s' hopens hlast hspan hreach =>
    rw [translate, List.append_assoc]
    exact weaves_mark hpoint fun last' _ =>
      weaves_itemExpr hdefault' hst hr hs1 hopens hlast hspan hsemi

/-! ## Texts between the items -/

/-- **A text between two items**, or in front of the end if `final`. Behind the last one, a comment
may go on up to the end. -/
theorem weaves_gap (final : Bool) (place : Reader) {apart' : Bool} {span : Span} {b : List Char}
    (hruns : Runs r1 ts r2) (hr : Ready src marks r1) (hloose : r1.Loose marks)
    (hfine : Fine calm (ts.map (·.kind))) (hlast : SameNext r1 last)
    (hx : r1.cursor.rest = x ++ place.cursor.rest) (hne : x ≠ []) (htext : span.text? src = some x)
    (hspan : span.start = r1.cursor.pos) (hb2 : r2.cursor.rest = b ++ place.cursor.rest)
    (hplace : place.last = r2.last)
    (hstart : (nextToken r2).1.kind ≠ .error → (nextToken r2).1.kind ≠ .eof →
      r2.cursor.pos + byteLength b ≤ r2.forward.cursor.pos) (hblanks : Blanks final b)
    (hapart : apart' = x.getLast?.any fun c => if final then c == '\n' else isBlank c)
    (hfinal : final = true → place.cursor.rest = [])
    (hrest : Weaves calm src marks place apart' (if ts = [] then last else r2.last) ss) :
    Weaves calm src marks r1 apart last (.verbatim (.ofSpan span) :: ss) := by
  obtain ⟨w, hw, -⟩ := hruns.reaches
  obtain rfl : x = w ++ b := by
    refine List.append_cancel_right (?_ : _ ++ place.cursor.rest = _ ++ place.cursor.rest)
    rw [← hx, hw, hb2, List.append_assoc]
  have hpoint := ne_point_of_blanks hblanks
  obtain ⟨c, hc⟩ : ∃ c, (w ++ b).getLast? = some c := ⟨_, List.getLast?_eq_some_getLast hne⟩
  rw [hc, Option.any_some] at hapart
  have hblank : apart' = true → EndsBlank (w ++ b) := by
    rintro rfl
    refine ⟨c, hc, ?_⟩
    cases final with
    | false => exact hapart.symm
    | true =>
      obtain rfl : c = '\n' := beq_iff_eq.1 hapart.symm
      rfl
  have hfeed : (w ++ b).getLast? = some '\n' → apart' = true := by
    intro h
    obtain rfl : c = '\n' := Option.some.inj (hc.symm.trans h)
    cases final <;> exact hapart
  refine weaves_kept rfl hx hne hfeed hblank ?_ hr.marked hloose (fun st' hst' => ?_) hrest
  · intro hxp
    exact hruns.point (by rw [hx, hxp]; rfl) hb2 hpoint
  obtain ⟨ps, hps, rfl⟩ := hst'.exists_pieces rfl
  obtain ⟨x', hins, hrender⟩ := hps.ofSpan hr.boundary htext
  rw [hspan] at hins
  refine ⟨x', hrender, hins, fun out hout hmeets => ?_⟩
  have hcut : Cut (w ++ b) b place.cursor.rest out r2.last := by
    rw [← hplace]
    exact hmeets.elim (.inr ∘ .inl ∘ hblank) (·.cut _ b)
  -- The blanks in front of what follows end before it.
  have hread (last : Option Kind) : Leads last b out [] last := by
    cases final with
    | false => exact leads_blanks hblanks (by simp) last
    | true =>
      rcases hmeets with rfl | hfeed | ⟨hplace, -⟩ | ⟨-, ⟨d, hd, -⟩, -⟩
      · -- A line ends the text, and so does the comment that may come last.
        obtain rfl : c = '\n' := beq_iff_eq.1 hapart.symm
        obtain ⟨d, hd, hdblank⟩ := EndsBlank.behind ⟨'\n', hc, rfl⟩
          fun d hd => (hruns.ends hr.bounded hw d hd).1
        have hlastb : b.getLast? = some '\n' := by
          rw [List.getLast?_append, hd, Option.some_or] at hc
          rw [hd, hc]
        exact leads_blanks (blanks_of_getLast hblanks hlastb) (by simp) last
      · refine leads_blanks hblanks (fun _ d hd => ?_) last
        rw [hfeed d hd]
        rfl
      · exact absurd (hfinal rfl) hplace
      · rw [hfinal rfl] at hd
        cases hd
  obtain ⟨ks, hks, hleads⟩ :=
    hins.leads rfl hruns hx hb2 hpoint hstart hr.marked hlast hcut hr.bounded hread
  exact hout.lead hleads (hfine.widened hks)

theorem translateAll_gap (c : Carry) (lo hi : Nat) (ss : List Statement) :
    (translateAll c (gap lo hi ++ ss)).1 = gap lo hi ++ (translateAll c ss).1 := by
  unfold gap
  split <;> rfl

theorem exists_gap (hs : Stands src s r) (hruns : Runs r ts r1) (hs1 : Stands src s1 r1)
    (hk : (nextToken r1).1.kind = .kwImport ∨ (nextToken r1).1.kind = .kwExport) :
    ∃ x b, r.cursor.rest = x ++ r1.ahead ∧ r1.cursor.rest = b ++ r1.ahead ∧ Blanks false b ∧
      r1.forward.cursor.pos = r1.cursor.pos + byteLength b ∧
      s1.current.span.start = r.cursor.pos + byteLength x ∧
      Span.text? ⟨r.cursor.pos, s1.current.span.start⟩ src = some x := by
  have herr := hs1.clean _ (nextToken_mem r1)
  have heof : (nextToken r1).1.kind ≠ .eof := by
    rcases hk with hk | hk <;> rw [hk] <;> decide
  obtain ⟨b, hb, hblanks, hpos⟩ := exists_blanks herr heof
  have hreach : r1.cursor.Reaches r1.forward.cursor := ⟨b, hb, hpos⟩
  obtain ⟨x, hx, hpos'⟩ := hruns.reaches.trans hreach
  rw [hs1.current, span_start herr heof]
  exact ⟨x, b, hx, hb, hblanks, hpos, hpos', slice?_of_reaches hs.reaches hx hpos'⟩

/-! ## Whole modules -/

/-- What follows is read alike behind a token of the kind `last`. -/
structure Follows (r : Reader) (last : Option Kind) : Prop where
  same : SameNext r last
  point : isPoint last = true → isPoint r.last = true

theorem follows_refl (r : Reader) : Follows r r.last :=
  ⟨fun c _ => .refl c _, id⟩

theorem cursorBehind_eq {start : Nat} (hs2 : Stands src s2 r2)
    (hspan : st.sourceSpan? = some ⟨start, r2.cursor.pos⟩) : st.cursorBehind src = r2.cursor := by
  obtain ⟨before, hsrc, hpos⟩ := hs2.reaches
  have hsplit := splitBytes?_byteLength before r2.cursor.rest
  simp only [Nat.zero_add] at hsrc hpos
  rw [← hsrc, ← hpos] at hsplit
  rw [Statement.cursorBehind, hspan]
  simp only [hsplit, Option.map_some, Option.getD_some]

/-- **What follows an item is read alike behind the code for it.** -/
theorem follows_of_closesItem {start : Nat} (hst : st.IsWeavable calm src)
    (halone : st.isLeftAlone = false) (hs2 : Stands src s2 r2) (hsettled : s2.Settled)
    (hspan : st.sourceSpan? = some ⟨start, r2.cursor.pos⟩) (hy : Excerpt r1 ts r2 y)
    (hb : r1.AllBounded) (htext : Span.text? ⟨start, r2.cursor.pos⟩ src = some y)
    (h : ClosesItem st r2 last) : Follows r2 last := by
  refine ⟨fun c hc => ⟨?_, fun hword => ?_⟩, fun hpoint => ?_⟩
  · rintro rfl
    have hslash := hst.slash halone
    have hahead : Reader.ahead ⟨none, st.cursorBehind src⟩ = r2.ahead := by
      rw [cursorBehind_eq hs2 hspan]
      rfl
    simp only [Statement.meetsSlash, hahead, hc, beq_self_eq_true, Bool.true_and,
      Bool.or_eq_false_iff, Bool.not_eq_false', Statement.endsWithSemicolon, hspan,
      Option.bind_some, htext, Option.any_some, beq_iff_eq] at hslash
    have hsemi := (hy.ends hb ';' hslash.2).2 rfl
    rcases h.2 hslash.1 with hregex | rfl
    · rw [hregex, hsemi]
      rfl
    · rfl
  · rw [h.1, Bool.eq_false_iff]
    intro hpoint
    have hofWord := isOfWord_of_ahead hc hword (hs2.clean _ (nextToken_mem r2))
    have hnone := hsettled (by rw [hs2.lastKind]; exact hpoint)
    rw [hs2.current, hofWord] at hnone
    cases hnone
  · rw [h.1] at hpoint
    cases hpoint

theorem isLocalList_of_isDynamic (h : st.isDynamic = true) : st.isLocalList = false := by
  unfold Statement.isDynamic at h
  split at h
  · rfl
  · rfl
  · rfl
  · cases h

theorem isVerbatim_of_sourceSpan? {span : Span} (h : st.sourceSpan? = some span) :
    st.isVerbatim = false := by
  cases st with
  | verbatim => cases h
  | _ => rfl

theorem isPoint_of_startsItem
    (hk : (nextToken r1).1.kind = .kwImport ∨ (nextToken r1).1.kind = .kwExport) :
    isPoint r1.last = false := by
  rw [Bool.eq_false_iff]
  intro hpoint
  rcases hk with hk | hk
  · cases (kind_of_isPoint hpoint (by rw [hk]; rfl)).symm.trans hk
  · cases (kind_of_isPoint hpoint (by rw [hk]; rfl)).symm.trans hk

theorem sealed_of_isWeavable {start : Nat} {t : Token} (hst : st.IsWeavable true src)
    (hdynamic : st.isDynamic = true) (hspan : st.sourceSpan? = some ⟨start, r2.cursor.pos⟩)
    (htext : Span.text? ⟨start, r2.cursor.pos⟩ src = some y) (hy : Excerpt r1 (t :: ts) r2 y)
    (hb : r1.AllBounded) (hlast : SameNext r1 none) :
    r2.last = some .semicolon ∧ ts.all isInline = true ∧
      itemFree 1 ((t :: ts).map (·.kind)) = true := by
  have hsealed := (hst.calm rfl (isVerbatim_of_sourceSpan? hspan)).1 hdynamic
  rw [Statement.isSealed, Statement.endsWithSemicolon, hspan, Option.bind_some, htext,
    Option.any_some, Option.all_some, hy.scan_kinds hb hlast, Bool.and_eq_true, Bool.and_eq_true,
    beq_iff_eq] at hsealed
  obtain ⟨hsemi, hinline, hfree⟩ := hsealed
  obtain ⟨t', ts', e, hscan, -, hts', -⟩ := hy.scan hb hlast
  rw [hscan, List.all_cons, List.all_append, Bool.and_eq_true, Bool.and_eq_true] at hinline
  exact ⟨(hy.ends hb ';' hsemi).2 rfl, all_isInline_of_looks hts' ▸ hinline.2.1,
    itemFree_of_eof hfree⟩

/-- **One item of a module**: its code, or the item itself if its module is no string. -/
theorem weaves_step (hc : c.IsNamed) (hst : st.IsWeavable calm src) (hr : Ready src marks r1)
    (hs1 : Stands src s1 r1) (hs2 : Stands src s2 r2) (hat : atModuleItem s1 = true)
    (hitem : moduleItem s1 = .ok st s2)
    (hspan : st.sourceSpan? = some ⟨s1.current.span.start, r2.cursor.pos⟩)
    (happart : st.isLocalList = true → apart = true ∨ Stopped r2.cursor.rest)
    (hrest : ∀ last', Follows r2 last' →
      Weaves calm src marks r2 (st.isLocalList && apart) last' ss) (hpoint : isPoint last = false) :
    Weaves calm src marks r1.forward apart last ((translate c st).1 ++ ss) := by
  have hreach := consumes_moduleItem.1.ok hitem
  have hlt := consumes_moduleItem.2 hitem
  obtain ⟨ts, y, hy, htext⟩ := excerpt_of_spans hs1 hs2 ⟨hreach, hlt, rfl⟩
  rw [hs2.lastEnd (before_ne_none hreach hlt)] at htext
  have hk := hs1.kind_of_atModuleItem hat
  have hofWord : (nextToken r1).1.kind.isOfWord = true := by
    rcases hk with hk | hk <;> rw [hk] <;> rfl
  have hahead : r1.forward.cursor.rest = y ++ r2.cursor.rest := hy.ahead
  cases halone : st.isLeftAlone with
  | false =>
    refine weaves_item hc hst halone hr hs1 hs2 (moduleItem_shape hitem) ?_ happart ?_ hpoint
    · rw [hahead]
      simp [hy.text_ne_nil]
    · intro last' hclose
      exact hrest last' (follows_of_closesItem hst halone hs2 (settles_moduleItem hitem) hspan hy
        hr.bounded htext hclose)
  | true =>
    have hverbatim := isVerbatim_of_sourceSpan? hspan
    have hdynamic : st.isDynamic = true := by simpa [Statement.isLeftAlone, hverbatim] using halone
    obtain ⟨hsynth, hprint⟩ := print?_of_sourceSpan src hspan
    have hsame {kind : Option Kind} (hkind : isPoint kind = false) : SameNext r1 kind :=
      sameNext_of_isOfWord hofWord (isPoint_of_startsItem hk) hkind
    have hrest' := hrest r2.last (follows_refl r2)
    rw [isLocalList_of_isDynamic hdynamic, Bool.false_and] at hrest'
    rw [(translate_leftAlone halone c).1]
    obtain ⟨d, hd, hfeed⟩ := hy.getLast? hr.bounded
    obtain ⟨herr, heof⟩ := hy.nextToken_ne
    refine weaves_kept hsynth hahead hy.text_ne_nil ?_ (by simp) ?_ (hr.marked.forward herr heof) ?_
      ?_ hrest'
    · intro hlast
      exact absurd (Option.some.inj (hd.symm.trans hlast)) hfeed
    · -- An item starts with a word.
      intro hdot
      have hc' : r1.ahead.head? = some '.' := by rw [hy.ahead, hdot]; rfl
      rcases start_of_ahead hc' hofWord with h | h
      · cases h
      · exact absurd h (by decide +kernel)
    · refine fun hm => absurd (hr.marked.kind herr heof hm) ?_
      rcases hk with hk | hk <;> rw [hk] <;> decide
    · intro st' hst'
      obtain rfl := hst'.eq_of_none (Statement.fragment?_of_sourceSpan hspan)
      refine ⟨y, hprint.trans htext, .same _ y, fun out hout hmeets => ?_⟩
      have hcut := (hmeets.resolve_left (by simp)).cut y []
      cases calm with
      | false =>
        exact hout.excerpt hy hr.bounded hr.marked (.of_runs hy.runs (by simp)) (hsame hpoint)
          (.same _ y) hcut
      | true =>
        obtain ⟨t, ts, rfl⟩ := List.exists_cons_of_ne_nil hy.ne_nil
        obtain ⟨hsemi, hinline, hfree⟩ :=
          sealed_of_isWeavable hst hdynamic hspan htext hy hr.bounded (hsame rfl)
        exact hout.item hy hr.bounded hs1 hs2 hat hitem hdynamic hsemi hfree hinline (hsame hpoint) hcut

theorem listsApart_item (h : st.isVerbatim = false) :
    listsApart src apart (st :: ss) = true ↔
      (st.isLocalList = true → apart = true ∨ (st.cursorBehind src).rest.head?.all stops = true) ∧
        listsApart src (st.isLocalList && apart) ss = true := by
  have heq : listsApart src apart (st :: ss) =
      if st.isLocalList then
        (apart || (st.cursorBehind src).rest.head?.all stops) && listsApart src apart ss
      else listsApart src false ss := by
    cases st with
    | verbatim => cases h
    | _ => rfl
  rw [heq]
  cases st.isLocalList <;> simp

theorem listsApart_gap {hi : Nat} (hlt : lo < hi) (htext : Span.text? ⟨lo, hi⟩ src = some x) :
    listsApart src apart (gap lo hi ++ ss) = listsApart src (x.getLast?.any isBlank) ss := by
  have hrender := (render?_ofSpan ⟨lo, hi⟩ src).trans htext
  simp [gap, hlt, listsApart, hrender]

theorem gap_eq_nil (lo : Nat) : gap lo lo = [] := by
  simp [gap]

/-- **The text behind the last item.** -/
theorem weaves_end (hss : ∀ place apart last, Weaves calm src marks place apart last ss)
    (hs : Stands src s r1) (hruns : Runs r1 ts r2) (hr : Ready src marks r1)
    (hloose : r1.Loose marks) (hfine : Fine calm (ts.map (·.kind)))
    (heof : (nextToken r2).1.kind = .eof) (hlast : SameNext r1 last) :
    Weaves calm src marks r1 apart last (gap r1.cursor.pos (byteLength src) ++ ss) := by
  obtain ⟨before, hsrc, hpos⟩ := hs.reaches
  have hlength : byteLength src = r1.cursor.pos + byteLength r1.cursor.rest := by
    rw [show src = before ++ r1.cursor.rest from hsrc, byteLength_append, hpos, Nat.zero_add]
  rw [hlength]
  by_cases hrest : r1.cursor.rest = []
  · rw [hrest, byteLength_nil, Nat.add_zero, gap_eq_nil]
    exact hss _ _ _
  · have hlt : r1.cursor.pos < r1.cursor.pos + byteLength r1.cursor.rest :=
      Nat.lt_add_of_pos_right (byteLength_pos hrest)
    have htext : Span.text? ⟨r1.cursor.pos, r1.cursor.pos + byteLength r1.cursor.rest⟩ src =
        some r1.cursor.rest :=
      @slice?_of_reaches src r1.cursor.rest r1.cursor ⟨_, []⟩ hs.reaches (List.append_nil _).symm rfl
    have hnil {xs : List Char} : xs = xs ++ Cursor.rest ⟨byteLength src, []⟩ :=
      (List.append_nil _).symm
    rw [gap, if_pos hlt]
    exact weaves_gap true ⟨r2.last, ⟨byteLength src, []⟩⟩ hruns hr hloose hfine
      hlast hnil hrest htext rfl hnil rfl (fun _ h => absurd heof h) (blanks_of_eof heof) rfl
      (fun _ => rfl) (hss _ _ _)

/-- **The text of a lowered module is fine**, by induction over how the module was read. -/
theorem weaves_course {closing : List Statement}
    (hclosing : ∀ place apart last, Weaves calm src marks place apart last closing)
    (h : Course src lo r ss) (hlo : lo = r.cursor.pos) (hr : Ready src marks r)
    (hloose : r.Loose marks) (hss : ∀ st ∈ ss, st.IsWeavable calm src)
    (hlists : listsApart src apart ss = true) (hlast : Follows r last) (hc : c.IsNamed) :
    Weaves calm src marks r apart last ((translateAll c ss).1 ++ closing) := by
  induction h generalizing apart last c with
  | @done lo s r r' ts hs hruns hfree heof =>
    subst hlo
    rw [← List.append_nil (gap r.cursor.pos (byteLength src)), translateAll_gap, List.append_assoc]
    exact weaves_end hclosing hs hruns hr hloose (.of_runs hruns fun _ => hfree) heof hlast.same
  | @item lo s s1 s2 r r1 r2 ts st rest hs hruns hfree hat hs1 hitem hs2 hspan hcourse ih =>
    subst hlo
    have hk := hs1.kind_of_atModuleItem hat
    obtain ⟨x, b, hx, hb2, hblanks, hforward, hstart, htext⟩ := exists_gap hs hruns hs1 hk
    have hr1 := hr.of_runs hruns
    obtain ⟨us, y, hy, -⟩ := excerpt_of_spans hs1 hs2
      ⟨consumes_moduleItem.1.ok hitem, consumes_moduleItem.2 hitem, rfl⟩
    obtain ⟨-, hst, hrest⟩ := List.forall_mem_append.1 hss |>.imp id List.forall_mem_cons.1
    have hverbatim := isVerbatim_of_sourceSpan? hspan
    have hpoint1 := isPoint_of_startsItem hk
    have hpoint : isPoint (if ts = [] then last else r1.last) = false := by
      split
      · rename_i hts
        subst hts
        cases hruns
        rw [Bool.eq_false_iff]
        intro hpoint
        rw [hlast.point hpoint] at hpoint1
        cases hpoint1
      · exact hpoint1
    have himage : (translateAll c (gap r.cursor.pos s1.current.span.start ++ st :: rest)).1 ++ closing =
        gap r.cursor.pos s1.current.span.start ++ ((translate c st).1 ++
          ((translateAll (translate c st).2 rest).1 ++ closing)) := by
      rw [translateAll_gap, translateAll, List.append_assoc, List.append_assoc]
    have hstep {apart' : Bool} (hlists : listsApart src apart' (st :: rest) = true) :
        Weaves calm src marks r1.forward apart' (if ts = [] then last else r1.last)
          ((translate c st).1 ++ ((translateAll (translate c st).2 rest).1 ++ closing)) := by
      obtain ⟨happart, hlists'⟩ := (listsApart_item hverbatim).1 hlists
      rw [cursorBehind_eq hs2 hspan] at happart
      refine weaves_step hc hst hr1 hs1 hs2 hat hitem hspan (fun hlist => ?_)
        (fun last' hfollows => ?_) hpoint
      · exact (happart hlist).imp id fun hstops d hd => by simpa [hd] using hstops
      · exact ih rfl (hr1.of_runs hy.runs) (hr1.marked.loose hy.runs hy.ne_nil) hrest hlists' hfollows
          (isNamed_translate hc st)
    rw [himage]
    by_cases hnil : x = []
    · subst hnil
      have hts : ts = [] := hruns.eq_nil (by rw [hx, hb2]; simp)
      rw [byteLength_nil, Nat.add_zero] at hstart
      rw [hstart, gap_eq_nil] at hlists ⊢
      have hweaves := hstep hlists
      rw [if_pos hts] at hweaves
      subst hts
      cases hruns
      exact weaves_congr hweaves hx.symm rfl
    · have hlt : r.cursor.pos < s1.current.span.start := by
        rw [hstart]
        exact Nat.lt_add_of_pos_right (byteLength_pos hnil)
      rw [listsApart_gap hlt htext] at hlists
      rw [gap, if_pos hlt]
      exact weaves_gap false r1.forward hruns hr hloose (.of_runs hruns fun _ => hfree) hlast.same hx
        hnil htext rfl hb2 rfl (fun _ _ => Nat.le_of_eq hforward.symm) hblanks rfl (by simp)
        (hstep hlists)

end

end CommonJs

end ModuleForge
