import ModuleForge.Grammar.Error

/-!
# Reading a list of tokens

`Tokens` is a place in a list of tokens: the token before it and those that follow. A `Parse` step
moves the place forward, also when it fails: reading goes on from where the failure was noticed.

- `Shortens`, `Keeps`: a successful step leaves fewer, or not more, tokens. Loops end by these.
-/

namespace ModuleForge.Grammar

open Token (Kind)

variable {α β : Type}

/-- A place in a list of tokens. The list ends with its only end marker. -/
structure Tokens where
  before : Option Token := none
  rest : List Token

namespace Tokens

/-- The number of tokens that are left. -/
def left (s : Tokens) : Nat :=
  s.rest.length

/-- The offset where the last token that was read ends. -/
def lastEnd (s : Tokens) : Nat :=
  match s.before with
  | some t => t.span.stop
  | none => 0

/-- The next token. -/
def current (s : Tokens) : Token :=
  match s.rest with
  | t :: _ => t
  | [] => { kind := .eof, span := ⟨s.lastEnd, s.lastEnd⟩, value := "" }

def atEnd (s : Tokens) : Bool :=
  s.current.kind == .eof

/-- The kind of the token `n` places ahead. -/
def kindAt? (n : Nat) (s : Tokens) : Option Kind :=
  s.rest[n]?.map (·.kind)

/-- Steps over a token; the end marker is never passed. -/
def advance (s : Tokens) : Tokens :=
  match s.rest with
  | t :: rest => if t.kind == .eof then s else ⟨some t, rest⟩
  | [] => s

/-- Whether the next token is of this kind. -/
def check (kind : Kind) (s : Tokens) : Bool :=
  !s.atEnd && s.current.kind == kind

/-- Steps over a token of this kind, if it is the next one. -/
def advanceIf (kind : Kind) (s : Tokens) : Tokens :=
  if s.check kind then s.advance else s

theorem left_advance_le (s : Tokens) : s.advance.left ≤ s.left := by
  unfold advance
  split
  · rename_i t rest h
    split
    · exact Nat.le_refl _
    · simp [left, h]
  · exact Nat.le_refl _

theorem left_advanceIf_le (kind : Kind) (s : Tokens) : (s.advanceIf kind).left ≤ s.left := by
  unfold advanceIf
  split
  · exact left_advance_le s
  · exact Nat.le_refl _

theorem left_advance_lt {s : Tokens} (h : s.atEnd = false) : s.advance.left < s.left := by
  unfold advance
  cases hr : s.rest with
  | nil => simp [atEnd, current, hr] at h
  | cons t rest =>
    have ht : (t.kind == Kind.eof) = false := by simpa [atEnd, current, hr] using h
    simp [ht, left, hr]

theorem atEnd_of_check {s : Tokens} {kind : Kind} (h : s.check kind = true) :
    s.atEnd = false := by
  simp only [check, Bool.and_eq_true, Bool.not_eq_true'] at h
  exact h.1

end Tokens

/-- A step of reading: it answers a value, or a fault, and the place that was reached. -/
abbrev Parse := EStateM ParseError Tokens

/-- What a step answers. -/
abbrev Result := EStateM.Result ParseError Tokens

/-- Changes the value that was read. -/
def mapOk {α β : Type} (f : α → β) : Result α → Result β
  | .ok a s => .ok (f a) s
  | .error e s => .error e s

/-- Fails at the next token. -/
def fail {α : Type} (fault : Kind → Fault) : Parse α := fun s =>
  .error ⟨fault s.current.kind, s.current.span⟩ s

/-- Steps over the next token, if there is one. -/
def skip : Parse Unit := fun s => .ok () s.advance

/-- Reads a token of one kind. -/
def consume (kind : Kind) : Parse Token := fun s =>
  if s.check kind then .ok s.current s.advance
  else .error ⟨.expected kind s.current.kind, s.current.span⟩ s

/-- Reads a token of one kind, if it is the next one. -/
def optional (kind : Kind) : Parse Bool := fun s =>
  if s.check kind then .ok true s.advance else .ok false s

/-- Reads a word. -/
def word (w : String) : Parse Unit := fun s =>
  if s.current.isWord w then .ok () s.advance
  else .error ⟨.expectedWord w s.current.kind, s.current.span⟩ s

/-- Reads a word, if it is the next token. -/
def optionalWord (w : String) : Parse Bool := fun s =>
  if s.current.isWord w then .ok true s.advance else .ok false s

/-- The offset where the last token ends. -/
def lastEnd : Parse Nat := fun s => .ok s.lastEnd s

/-- The next token, which stays. -/
def peek : Parse Token := fun s => .ok s.current s

/-- Reads an identifier. -/
def identifier : Parse Name := do
  let t ← consume .identifier
  pure ⟨t.value, t.span⟩

/-- Steps over a semicolon, if it is the next token. -/
def optionalSemicolon : Parse Unit := do
  let _ ← optional .semicolon

/-! ## Progress -/

/-- A success leaves fewer tokens. -/
def Shortens {α : Type} (p : Parse α) : Prop :=
  ∀ ⦃s a s'⦄, p s = .ok a s' → s'.left < s.left

/-- A success does not leave more tokens. -/
def Keeps {α : Type} (p : Parse α) : Prop :=
  ∀ ⦃s a s'⦄, p s = .ok a s' → s'.left ≤ s.left

theorem Shortens.keeps {p : Parse α} (h : Shortens p) : Keeps p :=
  fun _ _ _ hs => Nat.le_of_lt (h hs)

theorem bind_eq_ok {p : Parse α} {k : α → Parse β} {s s'' : Tokens} {b : β} :
    (p >>= k) s = .ok b s'' ↔ ∃ a s', p s = .ok a s' ∧ k a s' = .ok b s'' := by
  show EStateM.bind p k s = .ok b s'' ↔ _
  unfold EStateM.bind
  cases p s with
  | ok a s' => simp [and_assoc]
  | error e s' => simp

theorem Shortens.bind {p : Parse α} {k : α → Parse β} (hp : Shortens p) (hk : ∀ a, Keeps (k a)) :
    Shortens (p >>= k) := by
  intro s b s'' h
  obtain ⟨a, s', h1, h2⟩ := bind_eq_ok.1 h
  exact Nat.lt_of_le_of_lt (hk a h2) (hp h1)

theorem Keeps.bind {p : Parse α} {k : α → Parse β} (hp : Keeps p) (hk : ∀ a, Keeps (k a)) :
    Keeps (p >>= k) := by
  intro s b s'' h
  obtain ⟨a, s', h1, h2⟩ := bind_eq_ok.1 h
  exact Nat.le_trans (hk a h2) (hp h1)

theorem Keeps.bind_shortens {p : Parse α} {k : α → Parse β} (hp : Keeps p)
    (hk : ∀ a, Shortens (k a)) : Shortens (p >>= k) := by
  intro s b s'' h
  obtain ⟨a, s', h1, h2⟩ := bind_eq_ok.1 h
  exact Nat.lt_of_lt_of_le (hk a h2) (hp h1)

theorem keeps_pure (a : α) : Keeps (pure a : Parse α) := by
  intro s b s' h
  cases h
  exact Nat.le_refl _

theorem keeps_peek : Keeps peek := by
  intro s b s' h
  cases h
  exact Nat.le_refl _

theorem keeps_lastEnd : Keeps lastEnd := by
  intro s b s' h
  cases h
  exact Nat.le_refl _

theorem keeps_skip : Keeps skip := by
  intro s b s' h
  cases h
  exact Tokens.left_advance_le s

theorem shortens_consume (kind : Kind) : Shortens (consume kind) := by
  intro s a s' h
  unfold consume at h
  split at h
  · rename_i hc
    cases h
    exact Tokens.left_advance_lt (Tokens.atEnd_of_check hc)
  · cases h

theorem keeps_optional (kind : Kind) : Keeps (optional kind) := by
  intro s a s' h
  unfold optional at h
  split at h
  · cases h
    exact Tokens.left_advance_le s
  · cases h
    exact Nat.le_refl _

theorem keeps_optionalSemicolon : Keeps optionalSemicolon :=
  (keeps_optional _).bind fun _ => keeps_pure _

theorem keeps_optionalWord (w : String) : Keeps (optionalWord w) := by
  intro s a s' h
  unfold optionalWord at h
  split at h
  · cases h
    exact Tokens.left_advance_le s
  · cases h
    exact Nat.le_refl _

theorem shortens_identifier : Shortens identifier :=
  (shortens_consume _).bind fun _ => keeps_pure _

end ModuleForge.Grammar
