import ModuleForge.CommonJs.Lowering
import ModuleForge.Proofs.Coverage

/-!
# The walk over a program as a translation of its statements

`translateAll` gives the CommonJS statements of a list of statements from left to right. Between two
statements it carries nothing but the names that are taken, whether the mark of a module stands, and
the name of the helper (`Carry`). The walk changes the body of a program in place while an index
moves over it; it does the same:

- `lowerStatement_lowers`: one step of the walk puts the translation of one statement between what
  is done and what is left.
- `lowerFrom_between`: hence the whole walk puts the translation of the list, and stands at its end.
- `lowerBody_lists`: behind that come the exports of local names and the helper.
- `lowerBody_image`: so it is for every program that was read from a source.
-/

namespace ModuleForge.CommonJs

variable {done rest ss : List Statement} {p : Program} {s : Stage} {st : Statement}

/-! ## The translation -/

/-- What the translation of one statement hands on to the next. -/
structure Carry where
  names : Names
  /-- Whether the mark of a module is in place. -/
  marked : Bool := false
  /-- The name of the helper for default imports, once one is needed. -/
  helper : Option String := none

namespace Carry

/-- The mark of a module, unless it is in place. -/
def mark (c : Carry) : List Statement :=
  if c.marked then [] else [.moduleMarker]

theorem eq_of_mem_mark {c : Carry} (h : st ∈ c.mark) : st = .moduleMarker := by
  unfold mark at h
  split at h
  · cases h
  · exact List.mem_singleton.1 h

def setMarked (c : Carry) : Carry :=
  { c with marked := true }

/-- The name that a base name gets. -/
def name (base : String) (c : Carry) : String :=
  c.names.fresh base

/-- The name that a base name gets is taken. -/
def take (base : String) (c : Carry) : Carry :=
  { c with names := c.names.reserve (c.name base) }

/-- The base name of the helper. -/
def helperBase : String :=
  bindingPrefix ++ "interopRequireDefault"

/-- The name of the helper; if there is none yet, the name it would get. -/
def helperName (c : Carry) : String :=
  c.helper.getD (c.name helperBase)

/-- There is a helper. -/
def needHelper (c : Carry) : Carry :=
  match c.helper with
  | some _ => c
  | none => { c.take helperBase with helper := some c.helperName }

end Carry

/-- The base name of a default export without name. -/
def defaultBase : String :=
  bindingPrefix ++ "default"

def isDefaultSpecifier : ImportSpecifier → Bool
  | .default _ => true
  | _ => false

/-- The variable for a specifier of an import. -/
def bindSpecifier (helper binding : String) : ImportSpecifier → Statement
  | .default n => .varBinding n.name (.interopDefault helper binding)
  | .namespace n => .varBinding n.name (.ident binding)
  | .named imported n => .varBinding n.name (.member binding imported.text)

/-- The export of one name of a required module. -/
def reexport (binding : String) (spec : ExportSpecifier) : Statement :=
  .exportAssign spec.exported.text (.member binding spec.inner.text)

/-- The export of one local name. -/
def exportLocal (spec : ExportSpecifier) : Statement :=
  .exportAssign spec.exported.text (.ident spec.inner.text)

/-- `exports.default = name;` -/
def exportAsDefault (name : String) : Statement :=
  .exportAssign "default" (.ident name)

/-- The text of a declaration with a name behind its keyword. -/
def namedText (decl : Span) (keywordEnd : Nat) (name : String) : Fragment :=
  ⟨[.source ⟨decl.start, keywordEnd⟩, .text (" " ++ name), .source ⟨keywordEnd, decl.stop⟩]⟩

/-- The statements that stand for one statement, and what is handed on behind them. -/
def translate (c : Carry) : Statement → List Statement × Carry
  | .importFrom ⟨[], .literal source, _⟩ => ([.require none source], c)
  | .importFrom ⟨specifiers, .literal source, _⟩ =>
    let binding := c.name (bindingBase source)
    let c := c.take (bindingBase source)
    (.require (some binding) source :: specifiers.map (bindSpecifier c.helperName binding),
      if specifiers.any isDefaultSpecifier then c.needHelper else c)
  | .exportAll ⟨.literal source, some name, _⟩ =>
    (c.mark ++ [.exportAssign name.text (.require source)], c.setMarked)
  | .exportAll ⟨.literal source, none, _⟩ =>
    let binding := c.name (bindingBase source)
    (c.mark ++ [.require (some binding) source, .exportAllKeys binding],
      (c.take (bindingBase source)).setMarked)
  | .exportNamed ⟨specifiers, some (.literal source), _⟩ =>
    let binding := c.name (bindingBase source)
    (c.mark ++ .require (some binding) source :: specifiers.map (reexport binding),
      (c.take (bindingBase source)).setMarked)
  | .exportNamed ⟨_, none, _⟩ => (c.mark, c.setMarked)
  | .exportDecl decl =>
    (c.mark ++ .declaration decl.kind (.ofSpan decl.decl) ::
      decl.names.map fun n => .exportAssign n.name (.ident n.name), c.setMarked)
  | .exportDefault (.decl .class (some name) decl _ _) =>
    (c.mark ++ [.declaration .class (.ofSpan decl), exportAsDefault name.name], c.setMarked)
  | .exportDefault (.decl kind (some name) decl _ _) =>
    (c.mark ++ [exportAsDefault name.name, .declaration kind (.ofSpan decl)], c.setMarked)
  | .exportDefault (.decl .class none decl keywordEnd _) =>
    let name := c.name defaultBase
    (c.mark ++ [.declaration .class (namedText decl keywordEnd name), exportAsDefault name],
      (c.take defaultBase).setMarked)
  | .exportDefault (.decl kind none decl keywordEnd _) =>
    let name := c.name defaultBase
    (c.mark ++ [exportAsDefault name, .declaration kind (namedText decl keywordEnd name)],
      (c.take defaultBase).setMarked)
  | .exportDefault (.expr expr _) =>
    let name := c.name defaultBase
    (c.mark ++ [.varBinding name (.source (.ofSpan expr)), exportAsDefault name],
      (c.take defaultBase).setMarked)
  | s => ([s], c)

/-- **The statements that stand for a list of statements**, and what is carried behind the last. -/
def translateAll (c : Carry) : List Statement → List Statement × Carry
  | [] => ([], c)
  | s :: rest =>
    let (image, c) := translate c s
    let (images, c) := translateAll c rest
    (image ++ images, c)

/-- The exports of local names that a statement leaves for the end of the module. -/
def localExports : Statement → List Statement
  | .exportNamed ⟨specifiers, none, _⟩ => specifiers.map exportLocal
  | _ => []

theorem exists_of_mem_localExports {st' : Statement} (h : st' ∈ localExports st) :
    ∃ spec, st' = exportLocal spec := by
  unfold localExports at h
  split at h
  · obtain ⟨spec, -, rfl⟩ := List.mem_map.1 h
    exact ⟨spec, rfl⟩
  · cases h

/-- The name of a default function or class. -/
def defaultNames : Statement → List String
  | .exportDefault (.decl _ (some name) _ _ _) => [name.name]
  | _ => []

/-! ## The stages of the walk -/

/-- What the walk hands on from one statement to the next. -/
def Walk.carry (w : Walk) : Carry :=
  ⟨w.names, w.marked, w.helper⟩

/-- The walk with other things to hand on. -/
def Walk.withCarry (c : Carry) (w : Walk) : Walk :=
  { w with names := c.names, marked := c.marked, helper := c.helper }

namespace Stage

/-- The walk stands between the statements `done` and the statements `rest`. -/
structure Between (s : Stage) (done rest : List Statement) : Prop where
  lists : s.program.Lists (done ++ rest)
  index : s.index = done.length

variable {s : Stage} {done rest : List Statement} {st : Statement}

theorem withName_eq (base : String) (k : String → Stage → Stage) (s : Stage) :
    s.withName base k = k (s.walk.carry.name base)
      { s with walk := s.walk.withCarry (s.walk.carry.take base) } := rfl

theorem withHelper_eq (k : String → Stage → Stage) (s : Stage) :
    s.withHelper k = k s.walk.carry.helperName
      { s with walk := s.walk.withCarry s.walk.carry.needHelper } := by
  unfold withHelper
  split
  · rename_i name h
    simp only [Walk.carry, Walk.withCarry, Carry.helperName, Carry.needHelper, h, Option.getD_some]
    rw [← h]
  · rename_i h
    simp only [withName_eq, Walk.carry, Walk.withCarry, Carry.helperName, Carry.needHelper, h]
    rfl

theorem mark_eq (s : Stage) :
    s.mark = ⟨s.walk.withCarry s.walk.carry.setMarked, s.mark.program, s.mark.index⟩ := by
  unfold mark Walk.withCarry Carry.setMarked
  split
  · rename_i h
    rw [← h]
    rfl
  · rfl

theorem Between.mark (h : s.Between done rest) :
    s.mark.Between (done ++ s.walk.carry.mark) rest := by
  unfold Stage.mark Carry.mark Walk.carry
  split
  · simpa using h
  · refine ⟨?_, by simp [h.index]⟩
    have := h.lists.insert .moduleMarker
    simpa [h.index] using this

theorem Between.pass (h : s.Between done (st :: rest)) : s.pass.Between (done ++ [st]) rest :=
  ⟨by simpa [Stage.pass] using h.lists, by simp [Stage.pass, h.index]⟩

theorem Between.put (h : s.Between done (st :: rest)) (ss : List Statement) :
    (s.put ss).Between (done ++ ss) rest := by
  refine ⟨?_, by simp [Stage.put, h.index]⟩
  have := h.lists.replaceWith ss
  simpa [Stage.put, h.index] using this

/-- A step of the walk over a statement: it leaves the translation of the statement behind and
hands on what the translation hands on. -/
structure Lowers (st : Statement) (s s' : Stage) : Prop where
  between : ∀ {done rest}, s.Between done (st :: rest) →
    s'.Between (done ++ (translate s.walk.carry st).1) rest
  carry : s'.walk.carry = (translate s.walk.carry st).2
  trailing : s'.walk.trailing = s.walk.trailing ++ localExports st
  defaults : s'.walk.defaults = s.walk.defaults ++ defaultNames st

theorem Lowers.of_pass (hst : translate s.walk.carry st = ([st], s.walk.carry))
    (hlocal : localExports st = []) (hdefault : defaultNames st = []) : Lowers st s s.pass := by
  refine ⟨fun h => ?_, ?_, ?_, ?_⟩
  · rw [hst]; exact h.pass
  · rw [hst]; rfl
  · rw [hlocal, List.append_nil]; rfl
  · rw [hdefault, List.append_nil]; rfl

theorem Lowers.of_put {w : Walk} {image : List Statement}
    (himage : (translate s.walk.carry st).1 = s.walk.carry.mark ++ image)
    (hcarry : w.carry = (translate s.walk.carry st).2)
    (htrailing : w.trailing = s.walk.trailing ++ localExports st)
    (hdefaults : w.defaults = s.walk.defaults ++ defaultNames st) :
    Lowers st s (put image { s.mark with walk := w }) := by
  refine ⟨fun h => ?_, hcarry, htrailing, hdefaults⟩
  rw [himage, ← List.append_assoc]
  have hm : Between { s.mark with walk := w } _ _ := ⟨h.mark.lists, h.mark.index⟩
  exact hm.put image

end Stage

open Stage

/-! ## Exports -/

theorem lowerExportAll_lowers (decl : ExportAll) (s : Stage) :
    Lowers (.exportAll decl) s (lowerExportAll decl s) := by
  obtain ⟨source, asName, span⟩ := decl
  cases source with
  | dynamic => exact .of_pass rfl rfl rfl
  | literal source =>
    cases asName with
    | some name =>
      simp only [lowerExportAll]
      rw [mark_eq]
      exact .of_put rfl rfl (List.append_nil _).symm (List.append_nil _).symm
    | none =>
      simp only [lowerExportAll, withName_eq]
      rw [mark_eq]
      exact .of_put rfl rfl (List.append_nil _).symm (List.append_nil _).symm

theorem lowerExportNamed_lowers (decl : ExportNamed) (s : Stage) :
    Lowers (.exportNamed decl) s (lowerExportNamed decl s) := by
  obtain ⟨specifiers, source, span⟩ := decl
  cases source with
  | none =>
    simp only [lowerExportNamed]
    rw [mark_eq]
    exact .of_put (List.append_nil _).symm rfl rfl (List.append_nil _).symm
  | some source =>
    cases source with
    | dynamic => exact .of_pass rfl rfl rfl
    | literal source =>
      simp only [lowerExportNamed, withName_eq]
      rw [mark_eq]
      exact .of_put rfl rfl (List.append_nil _).symm (List.append_nil _).symm

theorem lowerExportDecl_lowers (decl : ExportDecl) (s : Stage) :
    Lowers (.exportDecl decl) s (lowerExportDecl decl s) := by
  unfold lowerExportDecl
  rw [mark_eq]
  exact .of_put rfl rfl (List.append_nil _).symm (List.append_nil _).symm

/-- The keyword ends inside of the declaration, so that the name goes behind it. -/
theorem insertAt?_keywordEnd {decl : Span} {keywordEnd : Nat} (h1 : decl.start < keywordEnd)
    (h2 : keywordEnd < decl.stop) (name : String) :
    (Fragment.ofSpan decl).insertAt? keywordEnd (" " ++ name) =
      some (namedText decl keywordEnd name) := by
  have hc : decl.contains keywordEnd = true := by
    simp only [Span.contains, Bool.and_eq_true, decide_eq_true_eq]
    omega
  simp [Fragment.ofSpan, Fragment.insertAt?, Fragment.insertIn?, Piece.holds, hc, Piece.splitAt, h1,
    namedText]

theorem lowerExportDefault_lowers (decl : ExportDefault) (s : Stage)
    (hk : Statement.KeywordInside (.exportDefault decl)) :
    Lowers (.exportDefault decl) s (lowerExportDefault decl s) := by
  cases decl with
  | expr expr span =>
    simp only [lowerExportDefault, withName_eq]
    rw [mark_eq]
    exact .of_put rfl rfl (List.append_nil _).symm (List.append_nil _).symm
  | decl kind name decl keywordEnd span =>
    cases name with
    | some name =>
      simp only [lowerExportDefault]
      rw [mark_eq]
      cases kind <;> exact .of_put rfl rfl (List.append_nil _).symm rfl
    | none =>
      simp only [lowerExportDefault, withName_eq, insertAt?_keywordEnd hk.1 hk.2,
        Option.getD_some]
      rw [mark_eq]
      cases kind <;> exact .of_put rfl rfl (List.append_nil _).symm (List.append_nil _).symm

/-! ## Imports -/

namespace Carry

@[simp]
theorem helperName_needHelper (c : Carry) : c.needHelper.helperName = c.helperName := by
  obtain ⟨names, marked, helper⟩ := c
  cases helper <;> rfl

@[simp]
theorem needHelper_needHelper (c : Carry) : c.needHelper.needHelper = c.needHelper := by
  obtain ⟨names, marked, helper⟩ := c
  cases helper <;> rfl

/-- What is handed on behind the specifiers of an import. -/
def afterSpecifiers (specifiers : List ImportSpecifier) (c : Carry) : Carry :=
  if specifiers.any isDefaultSpecifier then c.needHelper else c

theorem afterSpecifiers_cons (spec : ImportSpecifier) (specifiers : List ImportSpecifier)
    (c : Carry) :
    c.afterSpecifiers (spec :: specifiers) =
      (c.afterSpecifiers specifiers).afterSpecifiers [spec] := by
  cases h1 : isDefaultSpecifier spec <;> cases h2 : specifiers.any isDefaultSpecifier <;>
    simp [afterSpecifiers, h1, h2]

theorem helperName_afterSpecifiers (specifiers : List ImportSpecifier) (c : Carry) :
    (c.afterSpecifiers specifiers).helperName = c.helperName := by
  unfold afterSpecifiers
  split
  · exact helperName_needHelper c
  · rfl

end Carry

theorem insertSpecifier_eq (binding : String) (spec : ImportSpecifier) (s : Stage) :
    insertSpecifier binding spec s =
      { walk := s.walk.withCarry (s.walk.carry.afterSpecifiers [spec])
        program := (s.program.insert (s.index + 1)
          (bindSpecifier s.walk.carry.helperName binding spec)).2
        index := s.index } := by
  cases spec with
  | default n => simp only [insertSpecifier, withHelper_eq]; rfl
  | «namespace» n => rfl
  | named imported n => rfl

/-- The variables of an import stand in the order of its specifiers, though the last one is put in
first. -/
theorem foldr_insertSpecifier (binding : String) (s : Stage) (specifiers : List ImportSpecifier) :
    ∃ p, specifiers.foldr (insertSpecifier binding) s =
        ⟨s.walk.withCarry (s.walk.carry.afterSpecifiers specifiers), p, s.index⟩ ∧
      ∀ {done here rest}, s.Between done (here :: rest) →
        p.Lists (done ++ here ::
          (specifiers.map (bindSpecifier s.walk.carry.helperName binding) ++ rest)) := by
  induction specifiers with
  | nil => exact ⟨s.program, rfl, fun h => h.lists⟩
  | cons spec specifiers ih =>
    obtain ⟨p, hs, hp⟩ := ih
    have hc : (s.walk.withCarry (s.walk.carry.afterSpecifiers specifiers)).carry =
        s.walk.carry.afterSpecifiers specifiers := rfl
    rw [List.foldr_cons, hs, insertSpecifier_eq, hc, ← Carry.afterSpecifiers_cons,
      Carry.helperName_afterSpecifiers]
    refine ⟨_, rfl, fun {done here rest} h => ?_⟩
    have hp' : p.Lists ((done ++ [here]) ++
        (specifiers.map (bindSpecifier s.walk.carry.helperName binding) ++ rest)) := by
      simpa using hp h
    have := hp'.insert (bindSpecifier s.walk.carry.helperName binding spec)
    simpa [h.index] using this

theorem Stage.Between.setHere {here : Statement} (h : s.Between done (here :: rest))
    (st : Statement) : (s.setHere st).Between done (st :: rest) := by
  refine ⟨?_, h.index⟩
  have := h.lists.replace st
  simpa [Stage.setHere, h.index] using this

theorem lowerImport_lowers (decl : ImportDecl) (s : Stage) :
    Lowers (.importFrom decl) s (lowerImport decl s) := by
  obtain ⟨specifiers, source, span⟩ := decl
  cases source with
  | dynamic => cases specifiers <;> exact .of_pass rfl rfl rfl
  | literal source =>
    cases specifiers with
    | nil =>
      exact ⟨fun h => (h.setHere (.require none source)).pass, rfl, (List.append_nil _).symm,
        (List.append_nil _).symm⟩
    | cons spec specifiers =>
      simp only [lowerImport, withName_eq]
      obtain ⟨p, hs, hp⟩ := foldr_insertSpecifier (s.walk.carry.name (bindingBase source))
        (Stage.setHere (.require (some (s.walk.carry.name (bindingBase source))) source)
          { s with walk := s.walk.withCarry (s.walk.carry.take (bindingBase source)) })
        (spec :: specifiers)
      rw [hs]
      refine ⟨fun {done rest} h => ?_, rfl, (List.append_nil _).symm, (List.append_nil _).symm⟩
      have h' : Between { s with walk := s.walk.withCarry (s.walk.carry.take (bindingBase source)) }
          done (.importFrom ⟨spec :: specifiers, .literal source, span⟩ :: rest) :=
        ⟨h.lists, h.index⟩
      refine ⟨?_, ?_⟩
      · rw [List.append_assoc]
        exact hp (h'.setHere _)
      · simp [Stage.setHere, translate, h.index]
        omega

/-! ## The whole walk -/

theorem lowerStatement_lowers (hk : st.KeywordInside) (s : Stage) :
    Lowers st s (lowerStatement st s) := by
  cases st with
  | exportAll decl => exact lowerExportAll_lowers decl s
  | exportNamed decl => exact lowerExportNamed_lowers decl s
  | exportDecl decl => exact lowerExportDecl_lowers decl s
  | exportDefault decl => exact lowerExportDefault_lowers decl s hk
  | importFrom decl => exact lowerImport_lowers decl s
  | _ => exact .of_pass rfl rfl rfl

/-- **The walk leaves the translation behind** and ends behind the last statement. -/
theorem lowerFrom_between (h : s.Between done rest) (hk : ∀ st ∈ rest, st.KeywordInside) :
    let s' := lowerFrom rest.length s
    s'.Between (done ++ (translateAll s.walk.carry rest).1) [] ∧
      s'.walk.carry = (translateAll s.walk.carry rest).2 ∧
      s'.walk.trailing = s.walk.trailing ++ rest.flatMap localExports ∧
      s'.walk.defaults = s.walk.defaults ++ rest.flatMap defaultNames := by
  induction rest generalizing s done with
  | nil =>
    refine ⟨?_, rfl, ?_, ?_⟩
    · simpa [translateAll, lowerFrom] using h
    · simp [lowerFrom]
    · simp [lowerFrom]
  | cons st rest ih =>
    have hget : s.program.get? s.index = some st := by rw [h.index]; exact h.lists.get?
    have hstep := lowerStatement_lowers (hk st (by simp)) s
    obtain ⟨hb, hc, ht, hd⟩ := ih (hstep.between h) fun st' hst' => hk st' (by simp [hst'])
    simp only [List.length_cons, lowerFrom, hget, translateAll]
    rw [hstep.carry] at hb hc
    rw [hstep.trailing] at ht
    rw [hstep.defaults] at hd
    refine ⟨?_, hc, ?_, ?_⟩
    · simpa using hb
    · simpa using ht
    · simpa using hd

theorem pushAll_lists (h : p.Lists ss) (more : List Statement) :
    (pushAll more p).Lists (ss ++ more) := by
  induction more generalizing p ss with
  | nil => simpa [pushAll] using h
  | cons s more ih =>
    have := ih (h.push s)
    simpa [pushAll] using this

/-- The statements that stand for those of a whole module. -/
def moduleImage (names : Names) (statements : List Statement) : List Statement :=
  let (images, c) := translateAll { names } statements
  images ++ statements.flatMap localExports ++ c.helper.toList.map .interopHelper

/-- **The walk over a program gives the image of its statements.** -/
theorem lowerBody_lists (h : p.Lists ss) (hk : ∀ st ∈ ss, st.KeywordInside) (names : Names) :
    (lowerBody names p).2.Lists (moduleImage names ss) ∧
      (lowerBody names p).1.defaults = ss.flatMap defaultNames := by
  have h0 : Between ⟨{ names }, p, 0⟩ [] ss := ⟨h, rfl⟩
  obtain ⟨hb, hc, ht, hd⟩ := lowerFrom_between h0 hk
  have hhelper : (lowerFrom ss.length ⟨{ names }, p, 0⟩).walk.helper =
      (translateAll { names } ss).2.helper := congrArg Carry.helper hc
  have htrailing : (lowerFrom ss.length ⟨{ names }, p, 0⟩).walk.trailing =
      ss.flatMap localExports := ht
  have hlists : (lowerFrom ss.length ⟨{ names }, p, 0⟩).program.Lists
      (translateAll { names } ss).1 := by
    have := hb.lists
    rw [List.append_nil] at this
    exact this
  simp only [lowerBody, h.length, htrailing, hhelper, moduleImage, List.append_assoc]
  exact ⟨pushAll_lists hlists _, hd⟩

/-- **The walk over a program that was read from a source**, whatever names are taken: its body is
the image of the statements that were read, and nothing else. -/
theorem lowerBody_image {source : String} {p : Program} (h : Grammar.parse source = .ok p)
    (names : Names) :
    p.Lists p.statements ∧ (lowerBody names p).2.Lists (moduleImage names p.statements) := by
  obtain ⟨ss, hp, hc⟩ := Grammar.parse_covers h
  rw [hp.statements]
  exact ⟨hp, (lowerBody_lists hp hc.keywordInside names).1⟩

/-- A module with an import, a default class without name and an export of a local name. -/
def mixedItems : String :=
  "import a, {b} from './x.js';\nexport default class {}\nexport {a as c}; f()"

theorem lowerBody_image_mixedItems :
    ∃ p, Grammar.parse mixedItems = .ok p ∧ p.Lists p.statements ∧
      (lowerBody {} p).2.Lists (moduleImage {} p.statements) := by
  have hok : (Grammar.parse mixedItems).toOption.any (fun _ => true) = true := by decide +kernel
  obtain ⟨p, hp, -⟩ := exists_ok_of_any hok
  exact ⟨p, hp, lowerBody_image hp {}⟩

end ModuleForge.CommonJs
