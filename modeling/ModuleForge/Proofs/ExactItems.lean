import ModuleForge.Proofs.Clauses

/-!
# Imports and exports are read by their grammar

The grammar of import statements, and of export statements with braces or a star. Reading follows it
exactly.

- `ImportBody`, `ExportBody`: the statements, up to the semicolon that may follow (`Ended`).
- `ReadsStatement`, `TakesStatement`: what is read is in the grammar; what is in it is read.
- `ReadsExactly`: a statement is read iff some tokens at the front are one, and then to the end of
  the longest.
- `readsExactly_clauses`: so it is for imports, and for exports with braces or a star.
-/

namespace ModuleForge.Grammar

open Token (Kind)
open Tokens

variable {decl : ImportDecl} {specifiers : List ImportSpecifier} {rest ts : List Token} {α : Type}

/-! ## The grammar -/

/-- What an import says: what it binds, and the module it imports from. -/
abbrev ImportForm := List ImportSpecifier × String

/-- An import without its semicolon. -/
inductive ImportBody : (ts following : List Token) → ImportForm → Prop
  | bare {first source : Token} {following : List Token} : first.kind = .kwImport →
      source.kind = .string → ImportBody [first, source] following ([], source.value)
  | names {first : Token} {ts us following : List Token} {specifiers : List ImportSpecifier}
      {m : String} : first.kind = .kwImport → ImportNames ts specifiers → FromModule us m →
      ImportBody (first :: (ts ++ us)) following (specifiers, m)

/-- What an export with braces or a star says. -/
inductive ExportForm where
  | named (specifiers : List ExportSpecifier) (source : Option String)
  | all (asName : Option ExportName) (source : String)

/-- An export with braces or a star, without its semicolon. Behind braces that the word `from`
follows, a module is named. -/
inductive ExportBody : (ts following : List Token) → ExportForm → Prop
  | own {first : Token} {ts following : List Token} {specifiers : List ExportSpecifier} :
      first.kind = .kwExport → InBraces ExportElement ts specifiers →
      (∀ t ∈ following.head?, t.isWord "from" = false) →
      ExportBody (first :: ts) following (.named specifiers none)
  | others {first : Token} {ts us following : List Token} {specifiers : List ExportSpecifier}
      {m : String} : first.kind = .kwExport → InBraces ExportElement ts specifiers →
      FromModule us m → ExportBody (first :: (ts ++ us)) following (.named specifiers (some m))
  | all {first star : Token} {us following : List Token} {m : String} : first.kind = .kwExport →
      star.kind = .star → FromModule us m →
      ExportBody (first :: star :: us) following (.all none m)
  | allAs {first star as t : Token} {us following : List Token} {name : ExportName} {m : String} :
      first.kind = .kwExport → star.kind = .star → as.isWord "as" = true → SurfaceName t name →
      FromModule us m → ExportBody (first :: star :: as :: t :: us) following (.all (some name) m)

/-- A semicolon, or nothing. -/
inductive OptionalSemicolon : List Token → Prop
  | none : OptionalSemicolon []
  | semicolon {t : Token} : t.kind = .semicolon → OptionalSemicolon [t]

/-- A statement and perhaps its semicolon. -/
def Ended {α : Type} (Body : List Token → List Token → α → Prop) (ts following : List Token)
    (a : α) : Prop :=
  ∃ body semi, ts = body ++ semi ∧ OptionalSemicolon semi ∧ Body body (semi ++ following) a

/-- What an import says, if its module is named by a string. -/
def importForm? (decl : ImportDecl) : Option ImportForm :=
  decl.source.literal?.map (decl.specifiers, ·)

/-- What an export with braces or a star says, if its module is named by a string. -/
def exportForm? : Statement → Option ExportForm
  | .exportNamed ⟨specifiers, none, _⟩ => some (.named specifiers none)
  | .exportNamed ⟨specifiers, some (.literal m), _⟩ => some (.named specifiers (some m))
  | .exportAll ⟨.literal m, asName, _⟩ => some (.all asName m)
  | _ => none

/-- At `s`, the step `p` reads exactly what `Derives` allows. It succeeds, with an answer that has a
form, iff some tokens at the front derive one; then it goes over the longest such tokens, and
answers the form that they derive. -/
structure ReadsExactly {α β : Type} (p : Parse β) (form? : β → Option α)
    (Derives : List Token → List Token → α → Prop) (s : Tokens) : Prop where
  succeeds_iff : (∃ b s' a, p s = .ok b s' ∧ form? b = some a) ↔
    ∃ ts following a, s.rest = ts ++ following ∧ Derives ts following a
  longest : ∀ b s' a, p s = .ok b s' → form? b = some a → ∃ ts, s.Over ts s' ∧
    Derives ts s'.rest a ∧ ∀ us following a', s.rest = us ++ following →
      Derives us following a' → us.length ≤ ts.length ∧ a' = a

/-! ## The end of a statement -/

/-- The end of a statement, as every statement is ended: over the semicolon, if there is one. -/
theorem close_eq (f : Nat → α) (s : Tokens) :
    (do
      optionalSemicolon
      let stop ← lastEnd
      pure (f stop) : Parse α) s =
      .ok (f (s.advanceIf .semicolon).lastEnd) (s.advanceIf .semicolon) := by
  have hoptional : optionalSemicolon s = .ok () (s.advanceIf .semicolon) := by
    unfold optionalSemicolon
    refine bind_eq_ok.2 ⟨s.check .semicolon, _, ?_, rfl⟩
    cases h : s.check .semicolon <;> simp [optional, advanceIf, h]
  rw [bind_of_ok hoptional]
  rfl

theorem close_over {α : Type} {f : Nat → α} {s s' : Tokens} {a : α}
    (h : (do
      optionalSemicolon
      let stop ← lastEnd
      pure (f stop) : Parse α) s = .ok a s') :
    a = f s'.lastEnd ∧ ∃ semi, OptionalSemicolon semi ∧ s.Over semi s' := by
  rw [close_eq] at h
  cases h
  refine ⟨rfl, ?_⟩
  unfold advanceIf
  split
  · rename_i hcheck
    obtain ⟨t, rest, hrest, hkind, heof⟩ := check_eq_true hcheck
    rw [advance_of_rest hrest heof]
    exact ⟨[t], .semicolon hkind, hrest, rfl⟩
  · exact ⟨[], .none, .refl s⟩

theorem left_advanceIf_semicolon {semi : List Token} (h : OptionalSemicolon semi)
    (before : Option Token) (rest : List Token) :
    (advanceIf .semicolon ⟨before, semi ++ rest⟩).left ≤ rest.length := by
  cases h with
  | none => exact left_advanceIf_le _ _
  | @semicolon t hkind =>
    rw [List.singleton_append, advanceIf, check_cons (by decide), if_pos (by simpa using hkind),
      advance_cons (by simp [hkind])]
    exact Nat.le_refl _

section

variable {α β γ : Type}

/-- What is read is in the grammar: wherever the step succeeds, it went over a statement that says
what was answered, and over the semicolon that may follow. -/
def ReadsStatement (p : Parse β) (form? : β → Option α)
    (Body : List Token → List Token → α → Prop) : Prop :=
  ∀ ⦃s b s' a⦄, Unattributed s.rest → p s = .ok b s' → form? b = some a →
    ∃ body semi, OptionalSemicolon semi ∧ s.Over (body ++ semi) s' ∧ Body body (semi ++ s'.rest) a

/-- Before `rest`, the step goes over exactly the tokens `ts` and over a semicolon that follows
them, and answers what has the form `a`. -/
def TakesStatement (p : Parse β) (form? : β → Option α) (ts rest : List Token) (a : α) : Prop :=
  ∀ before, ∃ b, p ⟨before, ts ++ rest⟩ = .ok b (advanceIf .semicolon ⟨lastOf before ts, rest⟩) ∧
    form? b = some a

variable {form? : β → Option α} {a : α} {ts us rest : List Token}

theorem TakesStatement.bind {p : Parse γ} {k : γ → Parse β} {c : γ} (hp : Takes p ts (us ++ rest) c)
    (hk : TakesStatement (k c) form? us rest a) :
    TakesStatement (p >>= k) form? (ts ++ us) rest a := by
  intro before
  rw [List.append_assoc, bind_of_ok (hp before), lastOf_append]
  exact hk (lastOf before ts)

theorem TakesStatement.bind_cons {p : Parse γ} {k : γ → Parse β} {c : γ} {t : Token}
    (hp : Takes p [t] (us ++ rest) c) (hk : TakesStatement (k c) form? us rest a) :
    TakesStatement (p >>= k) form? (t :: us) rest a :=
  TakesStatement.bind hp hk

theorem TakesStatement.bind_nil {p : Parse γ} {k : γ → Parse β} {c : γ}
    (hp : Takes p [] (us ++ rest) c) (hk : TakesStatement (k c) form? us rest a) :
    TakesStatement (p >>= k) form? us rest a :=
  TakesStatement.bind hp hk

theorem TakesStatement.close {p : Parse γ} {c : γ} {f : γ → Nat → β} (hp : Takes p ts rest c)
    (h : ∀ stop, form? (f c stop) = some a) :
    TakesStatement (do
      let c ← p
      optionalSemicolon
      let stop ← lastEnd
      pure (f c stop)) form? ts rest a := by
  intro before
  rw [bind_of_ok (hp before)]
  exact ⟨_, close_eq (f c) _, h _⟩

/-- **Reading by a grammar both ways is reading exactly.** Since a step has one answer, whatever
tokens make up a statement say what it answers, and end no later than it. -/
theorem readsExactly_of {p : Parse β} {Body : List Token → List Token → α → Prop}
    (hreads : ReadsStatement p form? Body)
    (htakes : ∀ {ts rest a}, Unattributed rest → Body ts rest a → TakesStatement p form? ts rest a)
    {s : Tokens} (hplain : Unattributed s.rest) : ReadsExactly p form? (Ended Body) s := by
  have hcomplete : ∀ us following a', s.rest = us ++ following → Ended Body us following a' →
      ∃ b s', p s = .ok b s' ∧ form? b = some a' ∧ s'.left ≤ following.length := by
    rintro us following a' hrest ⟨body, semi, rfl, hsemi, hbody⟩
    rw [List.append_assoc] at hrest
    have hfollowing : Unattributed (semi ++ following) :=
      fun t ht => hplain t (by rw [hrest]; exact List.mem_append_right _ ht)
    obtain ⟨b, hp, hform⟩ := htakes hfollowing hbody s.before
    rw [← hrest] at hp
    exact ⟨b, _, hp, hform, left_advanceIf_semicolon hsemi _ _⟩
  refine ⟨⟨?_, ?_⟩, ?_⟩
  · rintro ⟨b, s', a, hp, hform⟩
    obtain ⟨body, semi, hsemi, hover, hbody⟩ := hreads hplain hp hform
    exact ⟨body ++ semi, s'.rest, a, hover.rest, body, semi, rfl, hsemi, hbody⟩
  · rintro ⟨ts, following, a, hrest, hts⟩
    obtain ⟨b, s', hp, hform, -⟩ := hcomplete ts following a hrest hts
    exact ⟨b, s', a, hp, hform⟩
  · intro b s' a hp hform
    obtain ⟨body, semi, hsemi, hover, hbody⟩ := hreads hplain hp hform
    refine ⟨body ++ semi, hover, ⟨body, semi, rfl, hsemi, hbody⟩, ?_⟩
    intro us following a' hrest hus
    obtain ⟨b', s'', hp', hform', hleft⟩ := hcomplete us following a' hrest hus
    rw [hp] at hp'
    cases hp'
    refine ⟨?_, by simpa [hform] using hform'.symm⟩
    have hlength := congrArg List.length (hover.rest.symm.trans hrest)
    simp only [left, List.length_append] at hleft hlength ⊢
    omega

end

/-! ## Imports -/

theorem importForm?_eq_some {m : String} (h : importForm? decl = some (specifiers, m)) :
    decl.specifiers = specifiers ∧ decl.source = .literal m := by
  unfold importForm? at h
  cases hsource : decl.source with
  | literal text =>
    simp only [hsource, ModuleSource.literal?, Option.map_some, Option.some.injEq,
      Prod.mk.injEq] at h
    exact ⟨h.1, by rw [h.2]⟩
  | dynamic => simp [hsource, ModuleSource.literal?] at h

/-- An import that names what it binds: what stands in front of its source, and behind it. -/
theorem importDecl_over {s s' : Tokens} (h : importDecl s = .ok decl s') :
    (decl.specifiers = [] ∧ ∃ first s1 s2 semi, first.kind = .kwImport ∧ s.Over [first] s1 ∧
        s1.current.kind = .string ∧ moduleSource s1 = .ok decl.source s2 ∧
        OptionalSemicolon semi ∧ s2.Over semi s') ∨
      ∃ first ts s1 s2 semi, first.kind = .kwImport ∧ ImportNames ts decl.specifiers ∧
        s.Over (first :: ts) s1 ∧ fromClause s1 = .ok decl.source s2 ∧ OptionalSemicolon semi ∧
        s2.Over semi s' := by
  obtain ⟨first, s1, h1, h⟩ := bind_eq_ok.1 h
  obtain ⟨hfirst, hover1⟩ := consume_over h1
  obtain ⟨t, _, h2, h⟩ := bind_eq_ok.1 h
  cases h2
  cases hstring : s1.current.kind == .string <;> simp only [hstring] at h
  · obtain ⟨specifiers, s2, h2, h⟩ := bind_eq_ok.1 h
    obtain ⟨source, s3, h3, h⟩ := bind_eq_ok.1 h
    obtain ⟨rfl, semi, hsemi, hover⟩ := close_over h
    obtain ⟨ts, hover2, hnames⟩ := reads_importSpecifiers h2
    exact .inr ⟨first, ts, s2, s3, semi, hfirst, hnames, hover1.trans hover2, h3, hsemi, hover⟩
  · obtain ⟨_, _, h2, h⟩ := bind_eq_ok.1 h
    cases h2
    obtain ⟨source, s2, h2, h⟩ := bind_eq_ok.1 h
    obtain ⟨rfl, semi, hsemi, hover⟩ := close_over h
    exact .inl ⟨rfl, first, s1, s2, semi, hfirst, hover1, beq_iff_eq.1 hstring, h2, hsemi, hover⟩

theorem readsStatement_importDecl : ReadsStatement importDecl importForm? ImportBody := by
  rintro s ⟨specifiers, source, span⟩ s' ⟨specifiers', m⟩ hplain h hform
  obtain ⟨rfl, rfl⟩ := importForm?_eq_some hform
  rcases importDecl_over h with
    ⟨rfl, first, s1, s2, semi, hfirst, hover, hkind, hsource, hsemi, hover'⟩ |
    ⟨first, ts, s1, s2, semi, hfirst, hnames, hover, hsource, hsemi, hover'⟩
  · obtain ⟨-, rfl, hover2⟩ := moduleSource_over (hplain.of_over hover) hsource
    exact ⟨_, semi, hsemi, (hover.trans hover2).trans hover', .bare hfirst hkind⟩
  · obtain ⟨us, hover2, hfrom⟩ := fromClause_over (hplain.of_over hover) hsource
    exact ⟨first :: (ts ++ us), semi, hsemi, (hover.trans hover2).trans hover',
      .names hfirst hnames hfrom⟩

theorem takesStatement_importNames {form? : ImportDecl → Option α} {a : α} {first next : Token}
    {us : List Token} {source : ModuleSource} (hfirst : first.kind = .kwImport)
    (hnames : ImportNames ts specifiers) (hnext : next.kind = .identifier)
    (hsource : Takes fromClause (next :: us) rest source)
    (hform : ∀ span, form? ⟨specifiers, source, span⟩ = some a) :
    TakesStatement importDecl form? (first :: (ts ++ next :: us)) rest a := by
  have htakes := takes_importSpecifiers hnames hnext (us ++ rest)
  obtain ⟨t, tail, rfl, hstart⟩ := hnames.starts
  refine TakesStatement.bind_cons (takes_consume hfirst (by decide) _) ?_
  refine TakesStatement.bind_nil (takes_peek t _) ?_
  have hstart : (t.kind == .string) = false := by simpa using hstart
  simp only [hstart]
  refine TakesStatement.bind htakes ?_
  exact TakesStatement.close hsource fun _ => hform _

theorem takesStatement_importDecl {form : ImportForm} (hplain : Unattributed rest)
    (h : ImportBody ts rest form) : TakesStatement importDecl importForm? ts rest form := by
  cases h with
  | bare hfirst hsource =>
    refine TakesStatement.bind_cons (takes_consume hfirst (by decide) _) ?_
    refine TakesStatement.bind_nil (takes_peek _ _) ?_
    simp only [hsource]
    refine TakesStatement.bind_nil (takes_pure _ _) ?_
    exact TakesStatement.close (takes_moduleSource hsource hplain) fun _ => rfl
  | @names first ts us _ specifiers m hfirst hnames hfrom =>
    have hsource := takes_fromClause hfrom hplain
    obtain ⟨next, us, rfl, hword⟩ := hfrom.starts
    exact takesStatement_importNames hfirst hnames (kind_of_isWord hword) hsource fun _ => rfl

/-! ## Exports -/

theorem exportForm?_exportNamed {decl : ExportNamed} {form : ExportForm}
    (h : exportForm? (.exportNamed decl) = some form) :
    (decl.source = none ∧ form = .named decl.specifiers none) ∨
      ∃ m, decl.source = some (.literal m) ∧ form = .named decl.specifiers (some m) := by
  obtain ⟨specifiers, source, span⟩ := decl
  obtain - | (m | -) := source <;> simp only [exportForm?] at h <;> cases h
  · exact .inl ⟨rfl, rfl⟩
  · exact .inr ⟨m, rfl, rfl⟩

theorem exportForm?_exportAll {decl : ExportAll} {form : ExportForm}
    (h : exportForm? (.exportAll decl) = some form) :
    ∃ m, decl.source = .literal m ∧ form = .all decl.asName m := by
  obtain ⟨source, asName, span⟩ := decl
  obtain m | - := source <;> simp only [exportForm?] at h <;> cases h
  exact ⟨m, rfl, rfl⟩

section

variable {s s' : Tokens} {start : Nat} {st : Statement} {form : ExportForm} {rest : List Token}

theorem optionalFrom_over {source : Option ModuleSource} (h : optionalFrom s = .ok source s') :
    (source = none ∧ s' = s ∧ ∀ t ∈ s.rest.head?, t.isWord "from" = false) ∨
      ∃ m, source = some m ∧ fromClause s = .ok m s' := by
  obtain ⟨t, s1, h1, h⟩ := bind_eq_ok.1 h
  cases h1
  split at h
  · obtain ⟨m, h2, rfl⟩ := map_eq_ok.1 h
    exact .inr ⟨m, rfl, h2⟩
  · rename_i hword
    cases h
    refine .inl ⟨rfl, rfl, fun t ht => ?_⟩
    obtain ⟨rest, hrest⟩ : ∃ rest, s.rest = t :: rest := List.head?_eq_some_iff.1 ht
    rw [current_of_rest hrest] at hword
    simpa using hword

/-- Behind `export`, up to the end of a list in braces and of its module. -/
theorem exportNamed_over (h : exportNamed start s = .ok st s') :
    ∃ ts specifiers source s1 s2 semi, InBraces ExportElement ts specifiers ∧ s.Over ts s1 ∧
      optionalFrom s1 = .ok source s2 ∧ OptionalSemicolon semi ∧ s2.Over semi s' ∧
      st = .exportNamed ⟨specifiers, source, ⟨start, s'.lastEnd⟩⟩ := by
  obtain ⟨specifiers, s1, h1, h⟩ := bind_eq_ok.1 h
  obtain ⟨source, s2, h2, hlast⟩ := bind_eq_ok.1 h
  obtain ⟨rfl, semi, hsemi, hover⟩ := close_over hlast
  obtain ⟨ts, hover1, hbraces⟩ := readsElements_exportSpecifier.reads_inBraces h1
  exact ⟨ts, specifiers, source, s1, s2, semi, hbraces, hover1, h2, hsemi, hover, rfl⟩

/-- What stands behind `export` in front of the module, if it is a star. -/
inductive StarHead : List Token → Option ExportName → Prop
  | all {star : Token} : star.kind = .star → StarHead [star] none
  | allAs {star as t : Token} {name : ExportName} : star.kind = .star → as.isWord "as" = true →
      SurfaceName t name → StarHead [star, as, t] (some name)

theorem exportAll_over (h : exportAll start s = .ok st s') :
    ∃ ts asName source s1 s2 semi, StarHead ts asName ∧ s.Over ts s1 ∧
      fromClause s1 = .ok source s2 ∧ OptionalSemicolon semi ∧ s2.Over semi s' ∧
      st = .exportAll ⟨source, asName, ⟨start, s'.lastEnd⟩⟩ := by
  obtain ⟨star, s1, h1, h⟩ := bind_eq_ok.1 h
  obtain ⟨hstar, hover1⟩ := consume_over h1
  obtain ⟨isNamed, s2, h2, hnamed⟩ := bind_eq_ok.1 h
  rcases optionalWord_over h2 with ⟨rfl, has, hover2⟩ | ⟨rfl, rfl⟩
  · obtain ⟨asName, s3, h3, hnamed⟩ := bind_eq_ok.1 hnamed
    obtain ⟨source, s4, h4, hlast⟩ := bind_eq_ok.1 hnamed
    obtain ⟨rfl, semi, hsemi, hover⟩ := close_over hlast
    obtain ⟨placed, hplaced, rfl⟩ := map_eq_ok.1 h3
    obtain ⟨hname, -, hover3⟩ := exportName_over hplaced
    exact ⟨_, _, source, s3, s4, semi, .allAs hstar has hname, hover1.trans (hover2.trans hover3),
      h4, hsemi, hover, rfl⟩
  · obtain ⟨asName, s3, h3, hnamed⟩ := bind_eq_ok.1 hnamed
    cases h3
    obtain ⟨source, s4, h4, hlast⟩ := bind_eq_ok.1 hnamed
    obtain ⟨rfl, semi, hsemi, hover⟩ := close_over hlast
    exact ⟨_, _, source, s2, s4, semi, .all hstar, hover1, h4, hsemi, hover, rfl⟩

/-- An export that names no module, and no list of names. -/
abbrev IsDeclared (st : Statement) : Prop :=
  (∃ decl, st = .exportDecl decl) ∨ ∃ decl, st = .exportDefault decl

theorem isDeclared_exportVariables (start : Nat) :
    Gives (fun st _ => IsDeclared st) (exportVariables start) :=
  .bind fun _ => .bind fun _ => .bind fun _ => .bind fun _ => gives_lastEnd fun _ => .inl ⟨_, rfl⟩

theorem isDeclared_exportHoistable (start : Nat) :
    Gives (fun st _ => IsDeclared st) (exportHoistable start) := by
  refine .bind fun first => .bind fun ⟨kind, name, keywordEnd⟩ => .bind fun stop => ?_
  intro s st s' h
  cases name <;> cases h
  exact .inl ⟨_, rfl⟩

theorem isDeclared_exportDefault (start : Nat) :
    Gives (fun st _ => IsDeclared st) (exportDefault start) :=
  .bind fun _ => .bind fun _ =>
    .ite (.bind fun _ => .bind fun _ => gives_lastEnd fun _ => .inr ⟨_, rfl⟩)
      (.bind fun _ => .bind fun _ => .bind fun _ => .bind fun _ =>
        gives_lastEnd fun _ => .inr ⟨_, rfl⟩)

/-- The three shapes of an export. -/
theorem exportItem_over (h : exportItem s = .ok st s') :
    ∃ first s1, first.kind = .kwExport ∧ s.Over [first] s1 ∧
      (exportAll first.span.start s1 = .ok st s' ∨ exportNamed first.span.start s1 = .ok st s' ∨
        IsDeclared st) := by
  obtain ⟨first, s1, h1, h⟩ := bind_eq_ok.1 h
  obtain ⟨hfirst, hover⟩ := consume_over h1
  obtain ⟨t, s2, h2, h⟩ := bind_eq_ok.1 h
  cases h2
  refine ⟨first, s1, hfirst, hover, ?_⟩
  cases hkind : s1.current.kind <;> simp only [hkind] at h
  case star => exact .inl h
  case lbrace => exact .inr (.inl h)
  case kwDefault => exact .inr (.inr (isDeclared_exportDefault _ h))
  case kwVar | kwLet | kwConst => exact .inr (.inr (isDeclared_exportVariables _ h))
  case kwFunction | kwClass | identifier => exact .inr (.inr (isDeclared_exportHoistable _ h))
  all_goals cases h

theorem readsStatement_exportItem : ReadsStatement exportItem exportForm? ExportBody := by
  intro s st s' form hplain h hform
  obtain ⟨first, s1, hfirst, hover, h | h | ⟨decl, rfl⟩ | ⟨decl, rfl⟩⟩ := exportItem_over h
  · obtain ⟨ts, asName, source, s2, s3, semi, hhead, hover1, h2, hsemi, hover2, rfl⟩ :=
      exportAll_over h
    obtain ⟨m, rfl, rfl⟩ := exportForm?_exportAll hform
    obtain ⟨us, hover3, hfrom⟩ := fromClause_over (hplain.of_over (hover.trans hover1)) h2
    refine ⟨_, semi, hsemi, (hover.trans (hover1.trans hover3)).trans hover2, ?_⟩
    cases hhead with
    | all hstar => exact .all hfirst hstar hfrom
    | allAs hstar has hname => exact .allAs hfirst hstar has hname hfrom
  · obtain ⟨ts, specifiers, source, s2, s3, semi, hbraces, hover1, h2, hsemi, hover2, rfl⟩ :=
      exportNamed_over h
    rcases exportForm?_exportNamed hform with ⟨rfl, rfl⟩ | ⟨m, rfl, rfl⟩ <;>
      rcases optionalFrom_over h2 with ⟨hsource, rfl, hother⟩ | ⟨m', hsource, h3⟩ <;> cases hsource
    · rw [hover2.rest] at hother
      exact ⟨_, semi, hsemi, (hover.trans hover1).trans hover2, .own hfirst hbraces hother⟩
    · obtain ⟨us, hover3, hfrom⟩ := fromClause_over (hplain.of_over (hover.trans hover1)) h3
      exact ⟨first :: (ts ++ us), semi, hsemi, (hover.trans (hover1.trans hover3)).trans hover2,
        .others hfirst hbraces hfrom⟩
  -- an item of another shape has no form
  all_goals cases hform

theorem takes_optionalFrom {next : Token} {us : List Token} {source : ModuleSource}
    (hword : next.isWord "from" = true) (h : Takes fromClause (next :: us) rest source) :
    Takes optionalFrom (next :: us) rest (some source) := by
  refine (takes_peek next _).bind_nil ?_
  simp only [hword]
  intro before
  exact map_eq_ok.2 ⟨_, h before, rfl⟩

theorem takes_optionalFrom_other (h : ∀ t ∈ rest.head?, t.isWord "from" = false) :
    Takes optionalFrom [] rest none := by
  intro before
  have hword : (current ⟨before, rest⟩).isWord "from" = false := by
    cases rest with
    | nil => rfl
    | cons t rest => exact h t rfl
  refine bind_eq_ok.2 ⟨_, _, rfl, ?_⟩
  rw [List.nil_append, hword]
  rfl

section
variable {α : Type} {form? : Statement → Option α} {a : α} {first next : Token}
  {ts us rest : List Token}

theorem takesStatement_exportNamed {specifiers : List ExportSpecifier} {source : Option ModuleSource}
    (hfirst : first.kind = .kwExport) (hbraces : InBraces ExportElement ts specifiers)
    (hsource : Takes optionalFrom us rest source)
    (hform : ∀ span, form? (.exportNamed ⟨specifiers, source, span⟩) = some a) :
    TakesStatement exportItem form? (first :: (ts ++ us)) rest a := by
  have htakes (start : Nat) : TakesStatement (exportNamed start) form? (ts ++ us) rest a := by
    refine TakesStatement.bind (readsElements_exportSpecifier.takes_inBraces hbraces _) ?_
    exact TakesStatement.close hsource fun _ => hform _
  obtain ⟨hopening, -, -⟩ := hbraces
  refine TakesStatement.bind_cons (takes_consume hfirst (by decide) _) ?_
  refine TakesStatement.bind_nil (takes_peek _ _) ?_
  simpa only [hopening] using htakes _

theorem takesStatement_exportAll {asName : Option ExportName} {source : ModuleSource}
    (hfirst : first.kind = .kwExport) (hhead : StarHead ts asName) (hword : next.isWord "from" = true)
    (hsource : Takes fromClause (next :: us) rest source)
    (hform : ∀ span, form? (.exportAll ⟨source, asName, span⟩) = some a) :
    TakesStatement exportItem form? (first :: (ts ++ next :: us)) rest a := by
  refine TakesStatement.bind_cons (takes_consume hfirst (by decide) _) ?_
  cases hhead with
  | all hstar =>
    refine TakesStatement.bind_nil (takes_peek _ _) ?_
    simp only [hstar]
    refine TakesStatement.bind_cons (takes_consume hstar (by decide) _) ?_
    have hother : next.isWord "as" = false := by
      simp only [Token.isWord, Bool.and_eq_true, beq_iff_eq] at hword
      simp [Token.isWord, hword.2]
    refine TakesStatement.bind_nil (takes_optionalWord_other hother _) ?_
    refine TakesStatement.bind_nil (takes_pure none _) ?_
    exact TakesStatement.close hsource fun _ => hform _
  | @allAs star as t name hstar has hname =>
    refine TakesStatement.bind_nil (takes_peek _ _) ?_
    simp only [hstar]
    refine TakesStatement.bind_cons (takes_consume hstar (by decide) _) ?_
    refine TakesStatement.bind_cons (takes_optionalWord has _) ?_
    have halias : Takes ((fun n => some n.name) <$> exportName) [t] (next :: us ++ rest) (some name) :=
      fun before => map_eq_ok.2 ⟨_, takes_exportName hname _ before, rfl⟩
    refine TakesStatement.bind_cons halias ?_
    exact TakesStatement.close hsource fun _ => hform _

end

theorem takesStatement_exportItem (hplain : Unattributed rest) (h : ExportBody ts rest form) :
    TakesStatement exportItem exportForm? ts rest form := by
  cases h with
  | @own first ts _ specifiers hfirst hbraces hother =>
    rw [← List.append_nil ts]
    exact takesStatement_exportNamed hfirst hbraces (takes_optionalFrom_other hother) fun _ => rfl
  | others hfirst hbraces hfrom =>
    have hsource := takes_fromClause hfrom hplain
    obtain ⟨next, us, rfl, hword⟩ := hfrom.starts
    exact takesStatement_exportNamed hfirst hbraces (takes_optionalFrom hword hsource) fun _ => rfl
  | all hfirst hstar hfrom =>
    have hsource := takes_fromClause hfrom hplain
    obtain ⟨next, us, rfl, hword⟩ := hfrom.starts
    exact takesStatement_exportAll hfirst (.all hstar) hword hsource fun _ => rfl
  | allAs hfirst hstar has hname hfrom =>
    have hsource := takes_fromClause hfrom hplain
    obtain ⟨next, us, rfl, hword⟩ := hfrom.starts
    exact takesStatement_exportAll hfirst (.allAs hstar has hname) hword hsource fun _ => rfl

/-- **Import and export clauses are read by exactly their grammar**, where no attributes follow. -/
theorem readsExactly_clauses (h : Unattributed s.rest) :
    ReadsExactly importDecl importForm? (Ended ImportBody) s ∧
      ReadsExactly exportItem exportForm? (Ended ExportBody) s :=
  ⟨readsExactly_of readsStatement_importDecl takesStatement_importDecl h,
    readsExactly_of readsStatement_exportItem takesStatement_exportItem h⟩

end

theorem readsExactly_clauses_listed :
    let imported := Token.scan "import a, \x7b default as b, 'c d' as e, f, \x7d from 'm'; from();"
    let exported := Token.scan "export \x7b a as default, b \x7d from 'm'; export * as c from 'n'"
    ReadsExactly importDecl importForm? (Ended ImportBody) ⟨none, imported⟩ ∧
      ReadsExactly exportItem exportForm? (Ended ExportBody) ⟨none, exported⟩ := by
  refine ⟨(readsExactly_clauses ?_).1, (readsExactly_clauses ?_).2⟩
  · show ∀ t ∈ _, _
    decide +kernel
  · show ∀ t ∈ _, _
    decide +kernel

end ModuleForge.Grammar
