import ModuleForge.Grammar.Skip

/-!
# Binding patterns

A pattern is read only for the names that it binds; default values and computed keys are stepped
over. The names come in the order in which they are written.
-/

namespace ModuleForge.Grammar

open Token (Kind)

/-- Steps over `= value`, if it follows. -/
def optionalDefault : Parse Unit := do
  if ← optional .assign then skipExpression true else pure ()

/-- Steps over a comma, unless the closing bracket follows. -/
def separator (closing : Kind) : Parse Unit := fun s =>
  if s.check closing then .ok () s else (consume .comma *> pure ()) s

/-- What the start of a property in an object pattern says about the rest of it. -/
inductive Property where
  /-- `name` alone binds itself. -/
  | shorthand (name : Name)
  /-- A pattern follows, and perhaps a default value. -/
  | target
  /-- A pattern without default value follows. -/
  | restTarget

/-- Reads a property of an object pattern up to the pattern that it assigns to. -/
def property : Parse Property := do
  let key ← peek
  match key.kind with
  | .ellipsis => do
    skip
    pure .restTarget
  | .lbracket => do
    skipBalanced
    let _ ← consume .colon
    pure .target
  | .string | .number => do
    skip
    let _ ← consume .colon
    pure .target
  | kind =>
    if key.isIdentifierName then do
      skip
      if ← optional .colon then pure .target
      else if kind == .identifier then pure (.shorthand ⟨key.value, key.span⟩)
      else fun s => .error ⟨.reservedInPattern key.value, key.span⟩ s
    else fail .unexpectedInPattern

mutual

/-- Reads a binding pattern and answers the names that it binds. -/
def bindingPattern (s : Tokens) : Result (List Name) :=
  match _h : s.rest with
  | [] => .error ⟨.expectedPattern .eof, s.current.span⟩ s
  | t :: rest =>
    match t.kind with
    | .identifier => .ok [⟨t.value, t.span⟩] ⟨some t, rest⟩
    | .lbrace => objectPattern ⟨some t, rest⟩
    | .lbracket => arrayPattern ⟨some t, rest⟩
    | kind => .error ⟨.expectedPattern kind, t.span⟩ s
termination_by 2 * s.left
decreasing_by
  all_goals simp only [Tokens.left, _h, List.length_cons]
  all_goals omega

/-- Reads the properties of an object pattern and its closing brace. -/
def objectPattern (s : Tokens) : Result (List Name) :=
  if s.check .rbrace || s.atEnd then (consume .rbrace *> pure []) s
  else
    match property s with
    | .error e s' => .error e s'
    | .ok start s' =>
      let element : Result (List Name) :=
        match start with
        | .shorthand name => .ok [name] s'
        | .target | .restTarget =>
          if s'.left < s.left then bindingPattern s' else .ok [] s'
      match element with
      | .error e s' => .error e s'
      | .ok names s' =>
        let tail : Parse Unit := do
          match start with
          | .restTarget => pure ()
          | _ => optionalDefault
          separator .rbrace
        match tail s' with
        | .error e s' => .error e s'
        | .ok () s' =>
          if s'.left < s.left then mapOk (names ++ ·) (objectPattern s') else .ok names s'
termination_by 2 * s.left + 1

/-- Reads the elements of an array pattern and its closing bracket. A comma alone is a hole. -/
def arrayPattern (s : Tokens) : Result (List Name) :=
  if s.check .rbracket || s.atEnd then (consume .rbracket *> pure []) s
  else if hcomma : s.check .comma then
    have : s.advance.left < s.left := Tokens.left_advance_lt (Tokens.atEnd_of_check hcomma)
    arrayPattern s.advance
  else
    have := Tokens.left_advanceIf_le .ellipsis s
    match bindingPattern (s.advanceIf .ellipsis) with
    | .error e s' => .error e s'
    | .ok names s' =>
      let tail : Parse Unit := do
        if s.check .ellipsis then pure () else optionalDefault
        separator .rbracket
      match tail s' with
      | .error e s' => .error e s'
      | .ok () s' =>
        if s'.left < s.left then mapOk (names ++ ·) (arrayPattern s') else .ok names s'
termination_by 2 * s.left + 1

end

/-- Reads `pattern [= value], ...` and answers the names that are bound. -/
def declarators (s : Tokens) : Result (List Name) :=
  match bindingPattern s with
  | .error e s' => .error e s'
  | .ok names s' =>
    match optionalDefault s' with
    | .error e s' => .error e s'
    | .ok () s' =>
      if s'.check .comma then
        if s'.advance.left < s.left then mapOk (names ++ ·) (declarators s'.advance)
        else .ok names s'.advance
      else .ok names s'
termination_by s.left

end ModuleForge.Grammar
