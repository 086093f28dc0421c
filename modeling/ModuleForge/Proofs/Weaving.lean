import ModuleForge.Proofs.Excerpts
import ModuleForge.Proofs.Reported
import ModuleForge.Proofs.Rereading

/-!
# Generated code between the texts of a source

What is printed for a module is made of generated statements, of texts that stood between the module
items, and of what is kept of the items. Read again, the kept texts have tokens of the same kinds as
in the source, with those of exports among them, and those of the generated statements are known.

- `Fine`: kinds of tokens without errors, and without module items if that is asked.
- `FineText`: a text without errors, whose module items are all left alone if that is asked.
- `FineText.lead`, `FineText.item`: what may stand in front of such a text.
- `Weaves`: statements whose text is fine behind the text that was printed before.
- `weaves_generated`, `weaves_declaration`, `weaves_named`, `weaves_expr`, `weaves_kept`: one more
  statement in front.
-/

namespace ModuleForge

open Token Text

variable {calm : Bool} {ks ls : List Kind}

/-! ## Kinds of tokens -/

/-- **There is no error among the kinds**, and no module item starts there if `calm`. -/
structure Fine (calm : Bool) (ks : List Kind) : Prop where
  clean : Kind.error ∉ ks
  free : calm = true → Grammar.itemFree 0 ks = true

theorem fine_of_forall (h : ∀ k ∈ ks, k ≠ .error ∧ (calm = true → k ≠ .kwImport ∧ k ≠ .kwExport)) :
    Fine calm ks :=
  ⟨fun hmem => (h _ hmem).1 rfl,
    fun hc => Grammar.itemFree_of_forall (fun k hk => (h k hk).2 hc) 0⟩

theorem Fine.of_runs {r r' : Reader} {ts : List Token} (h : Runs r ts r')
    (hfree : calm = true → Grammar.itemFree 0 (ts.map (·.kind)) = true) :
    Fine calm (ts.map (·.kind)) := by
  refine ⟨fun hmem => ?_, hfree⟩
  obtain ⟨t, ht, hk⟩ := List.mem_map.1 hmem
  exact h.ne_error t ht hk

/-- Exports in front of assignments start no items. -/
theorem itemFree_widened (h : Widened ks ls) {depth : Nat}
    (hfree : Grammar.itemFree depth ks = true) : Grammar.itemFree depth ls = true := by
  induction h generalizing depth with
  | nil => rfl
  | cons h ih =>
    obtain ⟨hk, hks⟩ := Grammar.itemFree_cons.1 hfree
    refine Grammar.itemFree_cons.2 ⟨fun hzero => ?_, ih hks⟩
    rw [h.head?]
    exact hk hzero
  | insert _ ih =>
    have hcons {k : Kind} {ks : List Kind} (hk : Grammar.opensItem k ks.head? = false)
        (hks : Grammar.itemFree (Grammar.depthAfter depth k) ks = true) :
        Grammar.itemFree depth (k :: ks) = true := Grammar.itemFree_cons.2 ⟨fun _ => hk, hks⟩
    exact hcons rfl (hcons rfl (hcons rfl (hcons rfl (ih hfree))))

theorem Fine.widened (h : Fine calm ks) (hw : Widened ks ls) : Fine calm ls := by
  refine ⟨fun hmem => ?_, fun hc => itemFree_widened hw (h.free hc)⟩
  rcases hw.mem hmem with hmem | hmem
  · exact h.clean hmem
  · exact absurd hmem (by decide)

theorem Fine.insert (h : Fine calm (ks ++ ls)) (hlast : ks.getLast? ≠ some .kwImport) :
    Fine calm (ks ++ .identifier :: ls) := by
  refine ⟨fun hmem => h.clean ?_, fun hc => Grammar.itemFree_insert (h.free hc) hlast⟩
  simpa using hmem

/-! ## Names -/

/-- A name that is written without escapes, and that is no start of a module item if `calm`. -/
def NiceName (calm : Bool) (name : String) : Prop :=
  isPlain name.toList = true ∧ (calm = true → name ≠ "import" ∧ name ≠ "export")

instance (calm : Bool) (name : String) : Decidable (NiceName calm name) :=
  inferInstanceAs (Decidable (_ ∧ _))

theorem niceName_of_isBindingName {name : String} (h : CommonJs.IsBindingName name) (calm : Bool) :
    NiceName calm name := by
  refine ⟨CommonJs.isPlain_of_isBindingName h, fun _ => ?_⟩
  constructor <;>
  · rintro rfl
    exact absurd h.2 (by decide +kernel)

theorem keyword?_of_isBindingName {name : String} (h : CommonJs.IsBindingName name) :
    keyword? name = none := by
  have hall : ∀ k ∈ keywords, ¬ CommonJs.bindingPrefix.toList <+: k.1.toList := by decide +kernel
  rw [keyword?, List.lookup_eq_none_iff]
  intro k hk
  rw [bne_iff_ne]
  rintro rfl
  exact hall k hk h.2

theorem wordKind_ne_item {name : String} (h : name ≠ "import" ∧ name ≠ "export")
    (last : Option Kind) : wordKind last name ≠ .kwImport ∧ wordKind last name ≠ .kwExport := by
  have hall : ∀ e ∈ keywords,
      (e.2 = .kwImport → e.1 = "import") ∧ (e.2 = .kwExport → e.1 = "export") := by decide +kernel
  unfold wordKind
  split
  · exact ⟨nofun, nofun⟩
  · cases hk : keyword? name with
    | none => exact ⟨nofun, nofun⟩
    | some kind =>
      obtain ⟨l1, l2, hl, -⟩ := List.lookup_eq_some_iff.1 hk
      have hmem : (name, kind) ∈ keywords := by simp [hl]
      exact ⟨fun hkind => h.1 ((hall _ hmem).1 hkind), fun hkind => h.2 ((hall _ hmem).2 hkind)⟩

/-! ## Generated statements -/

/-- None of the words starts a module item, but for names behind a dot; `dot` if one comes first. -/
def Token.Lexeme.isCalm : Bool → List Lexeme → Bool
  | _, [] => true
  | dot, .word w :: ls => (dot || (w != "import" && w != "export")) && isCalm false ls
  | dot, .space :: ls => isCalm dot ls
  | _, .mark m :: ls => isCalm (m == .dot) ls
  | _, .string _ :: ls => isCalm false ls

open Lexeme

/-- The tokens of lexemes are no errors, and none starts a module item where no word does. -/
theorem spell_kinds {calm dot : Bool} {last : Option Kind} {ls : List Lexeme}
    (hdot : dot = true → isPoint last = true) (h : calm = true → isCalm dot ls = true) :
    ∀ t ∈ spell last ls, t.kind ≠ .error ∧
      (calm = true → t.kind ≠ .kwImport ∧ t.kind ≠ .kwExport) := by
  induction ls generalizing dot last with
  | nil => simp [spell]
  | cons l ls ih =>
    cases l with
    | space => exact ih hdot h
    | word w =>
      have hrest : calm = true → isCalm false ls = true :=
        fun hc => (Bool.and_eq_true_iff.1 (h hc)).2
      refine List.forall_mem_cons.2 ⟨⟨wordKind_ne (by decide) _ _, fun hc => ?_⟩,
        @ih false _ (by simp) hrest⟩
      have hw := (Bool.and_eq_true_iff.1 (h hc)).1
      cases dot with
      | true =>
        have hkind : wordKind last w = .identifier := if_pos (hdot rfl)
        rw [hkind]
        constructor <;> simp
      | false => exact wordKind_ne_item (by simpa using hw) last
    | mark m =>
      have hm : m == .dot → isPoint (some m.kind) = true := by
        intro hm
        rw [beq_iff_eq.1 hm]
        rfl
      refine List.forall_mem_cons.2 ⟨⟨m.kind_ne.2, fun _ => ?_⟩, ih hm h⟩
      cases m <;> constructor <;> intro hk <;> cases hk
    | string text =>
      refine List.forall_mem_cons.2 ⟨⟨?_, fun _ => ⟨?_, ?_⟩⟩, @ih false _ (by simp) h⟩ <;> simp

open CommonJs in
theorem Statement.isCalm_generated {st : Statement} (h : st.IsGenerated)
    (hnames : ∀ n ∈ st.names, n ≠ "import" ∧ n ≠ "export") : isCalm false st.lexemes = true := by
  cases st with
  | require binding source =>
    cases binding <;> simp_all [lexemes, names, requireLexemes, varLexemes, isCalm]
  | varBinding name init =>
    cases init with
    | member object property =>
      simp only [lexemes, Expr.lexemes, memberLexemes]
      split <;> simp_all [names, Expr.names, varLexemes, isCalm]
    | source f => cases h.2
    | _ =>
      simp_all [lexemes, names, Expr.lexemes, Expr.names, requireLexemes, varLexemes, isCalm]
  | exportAssign exported value =>
    cases value with
    | member object property =>
      simp only [lexemes, Expr.lexemes, memberLexemes]
      split <;> split <;> simp_all [names, Expr.names, isCalm]
    | source f => cases h.2
    | _ =>
      simp only [lexemes, Expr.lexemes, memberLexemes]
      split <;> simp_all [names, Expr.names, requireLexemes, isCalm]
  | exportAllKeys =>
    simp_all [lexemes, names, copyStart, copyTest, copyAssign, copyEnd, isCalm]
  | moduleMarker => decide +kernel
  | interopHelper => simp_all [lexemes, names, helperEnd, isCalm]
  | verbatim | importFrom | exportAll | exportNamed | exportDecl | exportDefault => cases h.1
  | declaration => cases h.2

theorem getLast?_wellSpaced {ls : List Lexeme} (h : wellSpaced ls = true) :
    ∃ c, (text ls).getLast? = some c ∧ c ≠ '\n' := by
  fun_induction wellSpaced ls with
  | case1 => cases h
  | case2 m => cases m <;> exact ⟨_, rfl, by decide⟩
  | case3 => cases h
  | case4 l l' ls ih =>
    obtain ⟨c, hc, hne⟩ := ih (Bool.and_eq_true_iff.1 h).2
    have htext : text (l :: l' :: ls) = l.chars ++ text (l' :: ls) := List.flatMap_cons
    exact ⟨c, by rw [htext, List.getLast?_append, hc, Option.some_or], hne⟩

/-! ## Texts -/

/-- The module item is one that is left alone. -/
def Grammar.Item.isLeftAlone : Grammar.Item → Bool
  | .found _ st _ => st.isDynamic
  | .failed _ => false

/-- **There is no error among the tokens**, and every module item that is found from them on is left
alone if `calm`, however deep in brackets they stand. -/
structure FineTokens (calm : Bool) (ts : List Token) : Prop where
  clean : Kind.error ∉ ts.map (·.kind)
  items : calm = true → ∀ depth before newline,
    ∀ i ∈ Grammar.itemsFrom depth ⟨before, restart newline ts⟩, i.isLeftAlone = true

theorem FineTokens.append {calm : Bool} {ts us : List Token} (h : FineTokens calm us)
    (hts : Fine calm (ts.map (·.kind))) (newline : Bool) :
    FineTokens calm (ts ++ restart newline us) := by
  refine ⟨?_, fun hc depth before newline' => ?_⟩
  · rw [List.map_append, kinds_restart]
    exact List.not_mem_append hts.clean h.clean
  · cases ts with
    | nil =>
      rw [List.nil_append, restart_restart]
      exact h.items hc depth before newline'
    | cons t ts =>
      have hfree : Grammar.itemFree depth ((restart newline' (t :: ts)).map (·.kind)) = true := by
        rw [kinds_restart]
        exact Grammar.itemFree_mono (hts.free hc) (Nat.zero_le depth)
      rw [restart_append (by simp)]
      rcases @Grammar.itemsFrom_append depth _ (restart newline us) before hfree with
        hnil | ⟨depth', before', heq⟩
      · simp [hnil]
      · rw [heq]
        exact h.items hc depth' before' newline

/-- **The text is read as tokens that are fine** behind a token of the kind `last`. -/
def FineText (calm : Bool) (last : Option Kind) (out : List Char) : Prop :=
  ∀ pos, FineTokens calm (tokensFrom ⟨last, ⟨pos, out⟩⟩)

section
variable {calm : Bool} {last last' : Option Kind} {x out : List Char} {ks : List Kind}

/-- **A text whose tokens are fine may stand in front.** -/
theorem FineText.lead (h : FineText calm last' out) (hx : Leads last x out ks last')
    (hks : Fine calm ks) : FineText calm last (x ++ out) := by
  intro pos
  obtain ⟨ts, pos', newline, hread, rfl⟩ := hx pos
  rw [hread]
  exact (h pos').append hks newline

theorem fineText_nil (calm : Bool) (last : Option Kind) : FineText calm last [] := by
  intro pos
  rw [tokensFrom_eq, nextToken_nil, if_pos rfl]
  refine ⟨by simp, fun _ depth before newline i hi => ?_⟩
  rw [restart, Grammar.itemsFrom_eq] at hi
  cases hi

open Grammar in
/-- **An item that is left alone may stand in front** if it is one line that a semicolon ends, and if
no bracket closes in it that was open before. -/
theorem FineText.item {src : List Char} {s1 s2 : Tokens} {r1 r2 : Reader} {t : Token}
    {ts : List Token} {st : Statement} (h : FineText calm r2.last out)
    (hx : Excerpt r1 (t :: ts) r2 x) (hb : r1.AllBounded) (hs1 : Stands src s1 r1)
    (hs2 : Stands src s2 r2) (hat : atModuleItem s1 = true) (hitem : moduleItem s1 = .ok st s2)
    (hdynamic : st.isDynamic = true) (hsemi : r2.last = some .semicolon)
    (hfree : itemFree 1 ((t :: ts).map (·.kind)) = true) (hinline : ts.all isInline = true)
    (hlast : SameNext r1 last) (hcut : Cut x [] r2.cursor.rest out r2.last) :
    FineText calm last (x ++ out) := by
  intro pos
  obtain ⟨t', ts', pos', hread, ht', hts'⟩ := hx.copies hb hlast hcut pos
  have hkinds : (t' :: ts').map (·.kind) = (t :: ts).map (·.kind) := by
    rw [List.map_cons, ht', kinds_of_looks hts', List.map_cons]
  have hrest : s1.rest = t :: (ts ++ s2.rest) := by
    rw [hs1.rest, hs2.rest, hx.runs.tokensFrom, List.cons_append]
  have hout := h pos'
  rw [hread]
  refine ⟨?_, fun hc depth before newline => ?_⟩
  · rw [← List.cons_append, List.map_append, hkinds]
    refine List.not_mem_append (fun hmem => ?_) hout.clean
    obtain ⟨u, hu, hk⟩ := List.mem_map.1 hmem
    exact hx.runs.ne_error u hu hk
  obtain ⟨newline', hnewline⟩ := exists_restart (tokensFrom ⟨r2.last, ⟨pos', out⟩⟩)
  cases depth with
  | zero =>
    rw [hx.runs.last hx.ne_nil] at hsemi
    have hkind : Token.kind { t' with newlineBefore := newline } = t.kind := ht'
    obtain ⟨start, st', stop, before', hdynamic', hitems⟩ :=
      itemsFrom_again hat hitem hdynamic hrest hinline hsemi hkind hts' before
    rw [restart, hitems]
    refine List.forall_mem_cons.2 ⟨hdynamic', ?_⟩
    rw [← hnewline]
    exact hout.items hc 0 before' newline'
  | succ depth =>
    have hfree' : itemFree (depth + 1) ((restart newline (t' :: ts')).map (·.kind)) = true := by
      rw [kinds_restart, hkinds]
      exact itemFree_mono hfree (Nat.le_add_left 1 depth)
    rw [← List.cons_append, restart_append (by simp)]
    rcases @itemsFrom_append (depth + 1) _ (tokensFrom ⟨r2.last, ⟨pos', out⟩⟩) before hfree' with
      hnil | ⟨depth', before', heq⟩
    · simp [hnil]
    · rw [heq, ← hnewline]
      exact hout.items hc depth' before' newline'

theorem placeless_kind : Placeless (·.kind) :=
  fun _ => rfl

/-- **A generated statement may stand in front** where its names are fine. -/
theorem Statement.fineText_generated {st : Statement} (h : st.IsGenerated)
    (hnames : ∀ n ∈ st.names, NiceName calm n)
    (hout : FineText calm (st.lexemes.foldl kindBehind last) out) :
    FineText calm last (text st.lexemes ++ out) := by
  have hfit := fitAll_of_wellSpaced (readable_generated fun n hn => (hnames n hn).1)
    (wellSpaced_generated h) out
  refine hout.lead (leads_lexemes hfit last) (fine_of_forall (List.forall_mem_map.2 ?_))
  exact @spell_kinds calm false _ _ (by simp) fun hc =>
    st.isCalm_generated h fun n hn => (hnames n hn).2 hc

theorem FineText.semicolon (h : FineText calm (some .semicolon) out) (last : Option Kind) :
    FineText calm last (';' :: out) :=
  h.lead (@leads_lexeme out (.mark .semicolon) (.inl rfl) last)
    (fine_of_forall (List.forall_mem_singleton.2 ⟨by decide, fun _ => by decide⟩))

theorem FineText.varEquals {name : String} (h : FineText calm (some .assign) out)
    (hname : NiceName calm name) (last : Option Kind) :
    FineText calm last (CommonJs.varEquals name ++ out) := by
  have hends (text : List Char) : EndsWord (' ' :: text) :=
    endsWord_of_head (by decide +kernel) (by decide)
  have hfit : FitAll out (CommonJs.varLexemes name) :=
    ⟨⟨by decide +kernel, hends _⟩, trivial, ⟨hname.1, hends _⟩, trivial, .inr (.inl rfl), trivial,
      trivial⟩
  have hread := leads_lexemes hfit last
  rw [text_varLexemes] at hread
  refine h.lead hread (fine_of_forall (List.forall_mem_map.2 ?_))
  exact @spell_kinds calm false _ _ (by simp) fun hc => by
    simpa [isCalm, CommonJs.varLexemes] using hname.2 hc

open Grammar in
/-- **What is kept of the source in a synthesized statement**: an excerpt with generated code around
it, and with exports in front of assignments. -/
theorem FineText.excerpt {marks : Nat → Prop} {r r' : Reader} {ts : List Token} {x' : List Char}
    (h : FineText calm r'.last out) (hx : Excerpt r ts r' x) (hb : r.AllBounded)
    (hmarked : r.Marked marks) (hfine : Fine calm (ts.map (·.kind))) (hlast : SameNext r last)
    (hins : Inserted marks r.forward.cursor.pos x x')
    (hcut : Cut x [] r'.cursor.rest out r'.last) : FineText calm last (x' ++ out) := by
  obtain ⟨ks, hks, hread⟩ := hx.leads hb hmarked hins hlast hcut
  exact h.lead hread (hfine.widened hks)

end

/-! ## Statements behind a text -/

/-- **No token goes on from the text before the reader into the text `out`.** -/
def Meets (r : Reader) (out : List Char) : Prop :=
  (∀ c, out.head? = some c → c = '\n') ∨ r.cursor.rest ≠ [] ∧ Agree r.cursor.rest out ∨
    OpensWord out ∧ (∃ c, r.cursor.rest.head? = some c ∧ stops c = false) ∧
      r.last.all (!·.takesLetters) = true

theorem stopped_of_feed {out : List Char} (h : ∀ c, out.head? = some c → c = '\n') :
    Stopped out := by
  intro c hc
  rw [h c hc]
  rfl

theorem Meets.cut {r : Reader} {out : List Char} (h : Meets r out) (x b : List Char) :
    Cut x b r.cursor.rest out r.last := by
  rcases h with hfeed | ⟨-, hagree⟩ | ⟨hword, -, hlast⟩
  · exact .inl (agree_of_stops (stopped_of_feed hfeed) _)
  · exact .inl hagree
  · exact .inr (.inr ⟨hword, fun _ => hlast⟩)

theorem Meets.stopped {r : Reader} {out : List Char} (h : Meets r out)
    (hr : Stopped r.cursor.rest) : Stopped out := by
  rcases h with hfeed | ⟨-, q, f, f', hrest, rfl, hf, -⟩ | ⟨-, ⟨c, hc, hstop⟩, -⟩
  · exact stopped_of_feed hfeed
  · cases q with
    | nil => exact hf.resolve_right fun hword => hword.1 rfl
    | cons c q =>
      rw [hrest] at hr
      exact stopped_cons (hr c rfl) _
  · rw [hr c hc] at hstop
    cases hstop

/-- **The statements are printed as a text that is fine** behind a token of the kind `last`, also with
exports put in front of the marked offsets. In the source, what the reader has left follows what was
printed before, which ends with a blank if `apart`. -/
def Weaves (calm : Bool) (src : List Char) (marks : Nat → Prop) (place : Reader) (apart : Bool)
    (last : Option Kind) (ss : List Statement) : Prop :=
  ∀ ss', List.Forall₂ (Statement.Respelled marks) ss ss' →
    ∀ before : Option Char, before.any (· != '\n') = true ∨ apart = true →
      ∃ out, printFrom? src before ss' = some out ∧ FineText calm last out ∧
        (apart = true ∨ Meets place out)

section
variable {calm apart apart' : Bool} {src x : List Char} {marks : Nat → Prop} {place place' : Reader}
  {last last' : Option Kind} {ss : List Statement} {st : Statement}

theorem weaves_nil : Weaves calm src marks place apart last [] := by
  intro ss' hss before _
  cases hss
  exact ⟨[], rfl, fineText_nil calm last, .inr (.inl nofun)⟩

theorem weaves_synthesized (hsynth : st.isSynthesized = true)
    (hst : ∀ st', st.Respelled marks st' → ∃ x, st'.print? src = some x ∧
      (∃ c, x.getLast? = some c ∧ c ≠ '\n') ∧
      ∀ out, FineText calm last' out → apart' = true ∨ Meets place' out →
        FineText calm last (x ++ out))
    (hrest : Weaves calm src marks place' apart' last' ss) :
    Weaves calm src marks place apart last (st :: ss) := by
  intro ss' hss before hbefore
  cases hss with
  | @cons _ st' _ ss' hst' hss =>
    obtain ⟨x, hprint, ⟨c, hc, hne⟩, hread⟩ := hst st' hst'
    obtain ⟨out, hout, hfine, hmeets⟩ := hrest ss' hss (some c) (.inl (by simpa using hne))
    have hfine' := hread out hfine hmeets
    have hsynth' := hst'.isSynthesized.trans hsynth
    cases hfeed : before.any (· != '\n') with
    | true =>
      have hlast' : ('\n' :: x).getLast? = some c := by
        rw [← List.singleton_append, List.getLast?_append, hc, Option.some_or]
      refine ⟨'\n' :: (x ++ out), ?_, ?_, .inr (.inl ?_)⟩
      · simp [printFrom?, hprint, hsynth', hfeed, hlast', hout]
      · exact hfine'.lead (@leads_blanks ['\n'] _ false (.blank (.inl rfl) .nil) (by simp) last)
          (fine_of_forall (by simp))
      · intro d hd
        exact (Option.some.inj hd).symm
    | false =>
      refine ⟨x ++ out, ?_, hfine', .inl (hbefore.resolve_left (by simp [hfeed]))⟩
      simp [printFrom?, hprint, hsynth', hfeed, hc, hout]

/-- A text of the source that may have insertions starts like the source. -/
theorem meets_inserted {x' out : List Char} (hx : place.cursor.rest = x ++ place'.cursor.rest)
    (hne : x ≠ []) (hpoint : x = ['.'] → ∀ c, place'.cursor.rest.head? = some c → c.isDigit = false)
    (hmarked : place.Marked marks) (hloose : place.Loose marks)
    (hins : Inserted marks place.cursor.pos x x')
    (hcut : Cut x [] place'.cursor.rest out place'.last) : Meets place (x' ++ out) := by
  rcases hins.head with rfl | ⟨hm, hword⟩ | ⟨y, z, z', hy, rfl, rfl, hm, hword⟩
  · refine .inr (.inl ⟨by simp [hx, hne], ?_⟩)
    rw [hx]
    exact hcut.agree hne hpoint
  · obtain ⟨c, hc, hstart⟩ := @Reader.Marked.head marks place hmarked [] _ hm rfl
    exact .inr (.inr ⟨hword out, ⟨c, hc, (not_stops_of_start hstart).1⟩, hloose hm⟩)
  · rw [List.append_assoc] at hx
    obtain ⟨c, hc, hstart⟩ := hmarked.head hm hx
    refine .inr (.inl ⟨by simp [hx, hy], ?_⟩)
    rw [hx, List.append_assoc]
    refine agree_of_opensWord (hword out) hy fun _ d hd => ?_
    obtain rfl := Option.some.inj (hc.symm.trans hd)
    exact (not_stops_of_start hstart).2

theorem weaves_kept (hsynth : st.isSynthesized = false)
    (hx : place.cursor.rest = x ++ place'.cursor.rest) (hne : x ≠ [])
    (hfeed : x.getLast? = some '\n' → apart' = true) (hblank : apart' = true → EndsBlank x)
    (hpoint : x = ['.'] → ∀ c, place'.cursor.rest.head? = some c → c.isDigit = false)
    (hmarked : place.Marked marks) (hloose : place.Loose marks)
    (hst : ∀ st', st.Respelled marks st' → ∃ x', st'.print? src = some x' ∧
      Inserted marks place.cursor.pos x x' ∧
      ∀ out, FineText calm last' out → apart' = true ∨ Meets place' out →
        FineText calm last (x' ++ out))
    (hrest : Weaves calm src marks place' apart' last' ss) :
    Weaves calm src marks place apart last (st :: ss) := by
  intro ss' hss before _
  cases hss with
  | @cons _ st' _ ss' hst' hss =>
    obtain ⟨x', hprint, hins, hread⟩ := hst st' hst'
    obtain ⟨c, hc⟩ : ∃ c, x.getLast? = some c := ⟨_, List.getLast?_eq_some_getLast hne⟩
    have hbefore : (some c).any (· != '\n') = true ∨ apart' = true := by
      by_cases hfeed' : c = '\n'
      · exact .inr (hfeed (hfeed' ▸ hc))
      · exact .inl (by simpa using hfeed')
    obtain ⟨out, hout, hfine, hmeets⟩ := hrest ss' hss (some c) hbefore
    have hcut : Cut x [] place'.cursor.rest out place'.last :=
      hmeets.elim (.inr ∘ .inl ∘ hblank) (·.cut x [])
    refine ⟨x' ++ out, ?_, hread out hfine hmeets,
      .inr (meets_inserted hx hne hpoint hmarked hloose hins hcut)⟩
    have hsynth' := hst'.isSynthesized.trans hsynth
    simp [printFrom?, hprint, hsynth', hins.getLast?.trans hc, hout]

theorem Statement.fragment?_generated (h : st.IsGenerated) : st.fragment? = none := by
  cases st with
  | varBinding name init =>
    cases init with
    | source f => cases h.2
    | _ => rfl
  | exportAssign exported value =>
    cases value with
    | source f => cases h.2
    | _ => rfl
  | verbatim => cases h.1
  | declaration => cases h.2
  | _ => rfl

/-- **A generated statement** may stand in front of anything. -/
theorem weaves_generated (h : st.IsGenerated) (hnames : ∀ n ∈ st.names, NiceName calm n)
    (hrest : Weaves calm src marks place' apart' (st.lexemes.foldl kindBehind last) ss) :
    Weaves calm src marks place apart last (st :: ss) := by
  refine weaves_synthesized h.1 (fun st' hst' => ?_) hrest
  obtain rfl := hst'.eq_of_none (Statement.fragment?_generated h)
  exact ⟨_, Statement.print?_generated h src, getLast?_wellSpaced (Statement.wellSpaced_generated h),
    fun _ hout _ => Statement.fineText_generated h hnames hout⟩

/-- Generated code that ends with a semicolon, with names that are fine. -/
structure Statement.IsNice (calm : Bool) (st : Statement) : Prop where
  generated : st.IsGenerated
  names : ∀ n ∈ st.names, NiceName calm n
  ends : ∀ last, st.lexemes.foldl kindBehind last = some .semicolon

theorem Statement.isNice (h : st.IsGenerated) (hhelper : ∀ name, st ≠ .interopHelper name)
    (hnames : ∀ n ∈ st.names, NiceName calm n) : st.IsNice calm := by
  refine ⟨h, hnames, fun last => (kindBehind_generated h last).resolve_right fun hbrace => ?_⟩
  have hsemi (ls : List Lexeme) :
      (ls ++ [Lexeme.mark .semicolon]).foldl kindBehind last = some .semicolon := by
    rw [List.foldl_append]
    rfl
  cases st with
  | require binding source => cases binding <;> cases (hsemi _).symm.trans hbrace
  | varBinding | exportAssign => cases (hsemi _).symm.trans hbrace
  | exportAllKeys | moduleMarker => cases hbrace
  | interopHelper name => exact hhelper name rfl
  | verbatim | importFrom | exportAll | exportNamed | exportDecl | exportDefault => cases h.1
  | declaration => cases h.2

theorem weaves_statements {gs : List Statement} (h : ∀ st ∈ gs, st.IsNice calm) (hne : gs ≠ [])
    (hrest : Weaves calm src marks place' apart' (some .semicolon) ss) :
    Weaves calm src marks place apart last (gs ++ ss) := by
  induction gs generalizing place apart last with
  | nil => exact absurd rfl hne
  | cons st gs ih =>
    obtain ⟨hst, hgs⟩ := List.forall_mem_cons.1 h
    have htail : Weaves calm src marks place' apart' (some .semicolon) (gs ++ ss) := by
      cases gs with
      | nil => exact hrest
      | cons st' gs => exact ih hgs (by simp)
    rw [← hst.ends last] at htail
    exact weaves_generated hst.generated hst.names htail

open Grammar (Excerpt)

variable {r r' : Reader} {ts : List Token}

/-- The last significant character of a slice is not changed by what is put into it. -/
theorem lastSignificant?_spliced {span : Span} {c : Char} {ps : List Piece}
    (h : Spliced marks [.source span] ps) (hmarks : ∀ m, marks m → IsBoundary src m)
    (htext : span.text? src = some x) (hc : x.getLast? = some c) (hblank : isBlank c = false) :
    Fragment.lastSignificant? src ⟨ps⟩ = some (some c) := by
  obtain ⟨init, mid, rfl, hmid⟩ := h.getLast?
  obtain ⟨z, hz, hlast⟩ : ∃ z, Span.text? ⟨mid, span.stop⟩ src = some z ∧ z.getLast? = some c := by
    rcases hmid with rfl | ⟨hm, hle, hlt⟩
    · exact ⟨x, htext, hc⟩
    · obtain ⟨y, z, rfl, -, hz, -, hne⟩ := slice?_cut htext (hmarks _ hm) hle hlt
      refine ⟨z, hz, ?_⟩
      rw [List.getLast?_append, List.getLast?_eq_some_getLast hne, Option.some_or] at hc
      rw [List.getLast?_eq_some_getLast hne, hc]
  obtain ⟨y, rfl⟩ := List.getLast?_eq_some_iff.1 hlast
  simp [Fragment.lastSignificant?, Fragment.lastInReversed?, Piece.render?, hz, hblank]

/-- The tokens from a reader on end where the next ones start, and the marks stand in front of
names among them. -/
structure Ready (src : List Char) (marks : Nat → Prop) (r : Reader) : Prop where
  bounded : r.AllBounded
  marked : r.Marked marks
  boundary : ∀ m, marks m → IsBoundary src m

theorem Ready.of_runs (h : Ready src marks r) (hr : Runs r ts r') : Ready src marks r' :=
  ⟨h.bounded.of_runs hr, h.marked.of_runs hr, h.boundary⟩

/-- **A declaration without its `export`.** What follows does not depend on how it ends. -/
theorem weaves_declaration {kind : DeclKind} {span : Span} (hx : Excerpt r ts r' x)
    (htext : span.text? src = some x) (hstart : span.start = r.forward.cursor.pos)
    (hr : Ready src marks r) (hfine : Fine calm (ts.map (·.kind))) (hlast : SameNext r last)
    (hkind : kind ≠ .var → isPoint r'.last = false)
    (hrest : ∀ last', isPoint last' = false → regexAllowed last' = true ∨ last' = r'.last →
      Weaves calm src marks r' false last' ss) :
    Weaves calm src marks place apart last (.declaration kind (.ofSpan span) :: ss) := by
  obtain ⟨hb, hmarked, hmarks⟩ := hr
  have hrespelled {st' : Statement}
      (hst' : Statement.Respelled marks (.declaration kind (.ofSpan span)) st') :
      ∃ ps x', st' = .declaration kind ⟨ps⟩ ∧ Spliced marks [.source span] ps ∧
        Inserted marks r.forward.cursor.pos x x' ∧ Fragment.render? src ⟨ps⟩ = some x' := by
    obtain ⟨ps, hps, rfl⟩ := hst'.exists_pieces rfl
    obtain ⟨x', hins, hrender⟩ := hps.ofSpan hmarks htext
    exact ⟨ps, x', rfl, hps, hstart ▸ hins, hrender⟩
  have hkeep (hpoint : isPoint r'.last = false) (hprint : ∀ {ps : List Piece} {x' : List Char},
      Spliced marks [.source span] ps → Fragment.render? src ⟨ps⟩ = some x' →
        Statement.print? src (.declaration kind ⟨ps⟩) = some x') :
      Weaves calm src marks place apart last (.declaration kind (.ofSpan span) :: ss) := by
    refine weaves_synthesized rfl (fun st' hst' => ?_) (hrest r'.last hpoint (.inr rfl))
    obtain ⟨ps, x', rfl, hps, hins, hrender⟩ := hrespelled hst'
    refine ⟨x', hprint hps hrender, by rw [hins.getLast?]; exact hx.getLast? hb, ?_⟩
    exact fun out hout hmeets => hout.excerpt hx hb hmarked hfine hlast hins
      ((hmeets.resolve_left (by simp)).cut x [])
  by_cases hvar : kind = .var
  · subst hvar
    obtain ⟨c, hc⟩ : ∃ c, x.getLast? = some c := ⟨_, List.getLast?_eq_some_getLast hx.text_ne_nil⟩
    obtain ⟨hblank, hsemicolon⟩ := hx.ends hb c hc
    have hprint {ps : List Piece} {x' : List Char} (hps : Spliced marks [.source span] ps)
        (hrender : Fragment.render? src ⟨ps⟩ = some x') :
        Statement.print? src (.declaration .var ⟨ps⟩) =
          some (if some c == some ';' then x' else x' ++ [';']) := by
      rw [Statement.print?, hrender, lastSignificant?_spliced hps hmarks htext hc hblank]
      rfl
    by_cases hend : c = ';'
    · refine hkeep (by rw [hsemicolon hend]; rfl) fun hps hrender => (hprint hps hrender).trans ?_
      simp [hend]
    · refine weaves_synthesized rfl (fun st' hst' => ?_) (hrest (some .semicolon) rfl (.inl rfl))
      obtain ⟨ps, x', rfl, hps, hins, hrender⟩ := hrespelled hst'
      refine ⟨x' ++ [';'], (hprint hps hrender).trans (by simp [hend]), by simp, ?_⟩
      intro out hout _
      rw [List.append_assoc]
      exact (hout.semicolon r'.last).excerpt hx hb hmarked hfine hlast hins
        (.inl (agree_of_stops (stopped_cons rfl out) _))
  · refine hkeep (hkind hvar) fun _ hrender => ?_
    cases kind with
    | var => exact absurd rfl hvar
    | function | «class» => exact hrender

/-- **The variable for a default expression.** -/
theorem weaves_expr {name : String} {span : Span} (hname : NiceName calm name)
    (hx : Excerpt r ts r' x) (htext : span.text? src = some x)
    (hstart : span.start = r.forward.cursor.pos) (hr : Ready src marks r)
    (hfine : Fine calm (ts.map (·.kind))) (hlast : SameNext r (some .assign))
    (hrest : Weaves calm src marks place' apart' (some .semicolon) ss) :
    Weaves calm src marks place apart last (.varBinding name (.source (.ofSpan span)) :: ss) := by
  refine weaves_synthesized rfl (fun st' hst' => ?_) hrest
  obtain ⟨ps, hps, rfl⟩ := hst'.exists_pieces rfl
  obtain ⟨x', hins, hrender⟩ := hps.ofSpan hr.boundary htext
  rw [hstart] at hins
  have hprint : Statement.print? src (.varBinding name (.source ⟨ps⟩)) =
      some (CommonJs.varEquals name ++ x' ++ [';']) := by
    rw [Statement.print?, Expr.print?, hrender]
    rfl
  refine ⟨_, hprint, by simp, fun out hout _ => ?_⟩
  have hexpr := (hout.semicolon r'.last).excerpt hx hr.bounded hr.marked hfine hlast hins
    (.inl (agree_of_stops (stopped_cons rfl out) _))
  simpa using hexpr.varEquals hname last

theorem endsWord_inserted {y y' : List Char} (hins : Inserted marks r.cursor.pos y y')
    (hmarked : r.Marked marks) (hrest : r.cursor.rest = y ++ r'.cursor.rest) (hne : y ≠ [])
    (hword : EndsWord y) (out : List Char) : EndsWord (y' ++ out) := by
  obtain ⟨c, hc⟩ : ∃ c, y.head? = some c := ⟨_, List.head?_eq_some_head hne⟩
  obtain ⟨hpart, hback⟩ := hword c hc
  have hstart : isIdentifierStart c = false := by
    rw [Bool.eq_false_iff]
    intro hstart
    rw [isIdentifierPart_of_start hstart] at hpart
    cases hpart
  have hhead := hins.head?_eq hmarked hrest hc ⟨hback, hstart⟩
  intro d hd
  rw [List.head?_append, hhead, Option.some_or] at hd
  obtain rfl := Option.some.inj hd
  exact ⟨hpart, hback⟩

/-- **A default function or class that gets a name**, which is put behind its keyword. -/
theorem weaves_named {kind : DeclKind} {decl : Span} {keywordEnd : Nat} {name : String}
    {r1 : Reader} {us : List Token} {b y : List Char} (hname : CommonJs.IsBindingName name)
    (hx : Excerpt r ts r1 x) (htext : Span.text? ⟨decl.start, keywordEnd⟩ src = some x)
    (hstart : decl.start = r.forward.cursor.pos) (hend : keywordEnd = r1.cursor.pos)
    (hy : Excerpt r1 us r' y) (hrest1 : r1.cursor.rest = b ++ (y ++ r'.cursor.rest))
    (htext' : Span.text? ⟨keywordEnd, decl.stop⟩ src = some (b ++ y)) (hr : Ready src marks r)
    (hfine : Fine calm (ts.map (·.kind) ++ us.map (·.kind))) (hlast : SameNext r last)
    (hkeyword : r1.last ≠ some .kwImport) (hnext : SameNext r1 (some .identifier))
    (hword : EndsWord (b ++ y)) (hkind : kind ≠ .var)
    (hrest : Weaves calm src marks r' false r'.last ss) :
    Weaves calm src marks place apart last
      (.declaration kind (CommonJs.namedText decl keywordEnd name) :: ss) := by
  refine weaves_synthesized rfl (fun st' hst' => ?_) hrest
  obtain ⟨ps, hps, rfl⟩ := hst'.exists_pieces rfl
  obtain ⟨x', ps1, hinsx, hps1, hrenderx⟩ := hps.source hr.boundary htext
  obtain ⟨ps2, rfl, hps2⟩ := hps1.text
  obtain ⟨y', hinsy, hrendery⟩ := hps2.ofSpan hr.boundary htext'
  rw [hstart] at hinsx
  rw [hend] at hinsy
  have hrest1' : r1.cursor.rest = b ++ y ++ r'.cursor.rest := by rw [hrest1, List.append_assoc]
  have hne : b ++ y ≠ [] := by simp [hy.text_ne_nil]
  have hr1 := hr.of_runs hx.runs
  have hprint : Statement.print? src (.declaration kind ⟨ps⟩) =
      some (x' ++ ' ' :: (name.toList ++ y')) := by
    have hrender : Fragment.render? src ⟨ps⟩ = some (x' ++ ' ' :: (name.toList ++ y')) := by
      rw [Fragment.render?] at hrendery ⊢
      rw [hrenderx, Fragment.renderPieces?, hrendery]
      simp [Piece.render?]
    cases kind with
    | var => exact absurd rfl hkind
    | function | «class» => exact hrender
  refine ⟨_, hprint, ?_, fun out hout hmeets => ?_⟩
  · obtain ⟨c, hc, hfeed⟩ := hy.getLast? hr1.bounded
    refine ⟨c, ?_, hfeed⟩
    have hlast' : y'.getLast? = some c := by
      rw [hinsy.getLast?, List.getLast?_append, hc, Option.some_or]
    rw [← List.cons_append, ← List.append_assoc, List.getLast?_append, hlast', Option.some_or]
  -- The keyword, the name, and the rest of the declaration.
  have hcut := (hmeets.resolve_left (by simp)).cut (b ++ y) []
  have hspace : Stopped (' ' :: (name.toList ++ (y' ++ out))) := stopped_cons rfl _
  obtain ⟨ks, hks, hfront⟩ := hx.leads hr.bounded hr.marked hinsx hlast
    (.inl (agree_of_stops hspace _))
  have hname' : Leads r1.last (' ' :: name.toList) (y' ++ out) [.identifier] (some .identifier) := by
    have hfit : FitAll (y' ++ out) [.space, .word name] :=
      ⟨trivial, ⟨CommonJs.isPlain_of_isBindingName hname,
        endsWord_inserted hinsy hr1.marked hrest1' hne hword out⟩, trivial⟩
    have hread := leads_lexemes hfit r1.last
    have hkindName : wordKind r1.last name = .identifier := by
      simp [wordKind, keyword?_of_isBindingName hname]
    simpa [spell, Lexeme.text, Lexeme.chars, token?, kindBehind, hkindName] using hread
  obtain ⟨ls, hls, hback⟩ := hinsy.leads rfl hy.runs hrest1' (List.nil_append _).symm (by simp)
    (fun herr heof => (forward_pos_lt herr heof).1) hr1.marked hnext hcut hr1.bounded
    (fun last => @leads_blanks [] out false .nil (by simp) last)
  rw [if_neg hy.ne_nil] at hback
  have hread : Leads last (x' ++ (' ' :: name.toList ++ y')) out (ks ++ ([.identifier] ++ ls))
      r'.last := by
    refine Leads.append ?_ (hname'.append hback)
    simpa using hfront
  have hall := hout.lead hread ((Fine.insert hfine (by
    rw [List.getLast?_map, ← hx.runs.last hx.ne_nil]
    exact hkeyword)).widened (hks.append (.cons hls)))
  simpa using hall

end

end ModuleForge
