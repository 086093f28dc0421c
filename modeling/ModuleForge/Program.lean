import ModuleForge.Statement

/-!
# Programs

A program keeps its statements in an arena that only grows; the body lists the ones that count, in
order, by their place in the arena. Replacing a statement leaves the old one in the arena.

The operations that take a place in the body answer `none` past its end. Their statements are in the
arena even then, and the body is as it was.

- `Program.statements`: the statements of the body, in order.
-/

namespace ModuleForge

/-- The place of a statement in the arena. -/
abbrev NodeId := Nat

/-- The statements of one source file. -/
structure Program where
  nodes : Array Statement := #[]
  body : List NodeId := []
  span : Span
  deriving DecidableEq, Repr, Inhabited

namespace Program

/-- The program without statements. -/
def empty (span : Span) : Program :=
  { span }

/-- The number of statements of the body. -/
def length (p : Program) : Nat :=
  p.body.length

def isEmpty (p : Program) : Bool :=
  p.body.isEmpty

/-- The statement at a place in the arena. -/
def node? (id : NodeId) (p : Program) : Option Statement :=
  p.nodes[id]?

/-- The statement at a place in the body. -/
def get? (index : Nat) (p : Program) : Option Statement :=
  p.body[index]?.bind fun id => p.node? id

/-- **The statements of the body, in order.** -/
def statements (p : Program) : List Statement :=
  p.body.filterMap fun id => p.node? id

/-- Puts a statement into the arena only. -/
def alloc (s : Statement) (p : Program) : NodeId × Program :=
  (p.nodes.size, { p with nodes := p.nodes.push s })

/-- Puts statements into the arena only; they get consecutive places. -/
def allocAll (ss : List Statement) (p : Program) : List NodeId × Program :=
  (List.range' p.nodes.size ss.length, { p with nodes := p.nodes ++ ss.toArray })

/-- Adds a statement at the end of the body. -/
def push (s : Statement) (p : Program) : NodeId × Program :=
  let (id, p') := p.alloc s
  (id, { p' with body := p'.body ++ [id] })

/-- Replaces the statement at a place in the body. -/
def replace (index : Nat) (s : Statement) (p : Program) : Option NodeId × Program :=
  let (id, p') := p.alloc s
  if index < p.length then (some id, { p' with body := p'.body.set index id })
  else (none, p')

/-- Puts statements into the body from `index` on, in place of `removed` statements that stand
there. Answers the range of the body that they take. -/
def spliceAt (index removed : Nat) (ss : List Statement) (p : Program) :
    Option (Nat × Nat) × Program :=
  let (ids, p') := p.allocAll ss
  if index + removed ≤ p.length then
    (some (index, index + ss.length),
      { p' with body := p'.body.take index ++ ids ++ p'.body.drop (index + removed) })
  else (none, p')

/-- Inserts statements at a place in the body. -/
def splice (index : Nat) (ss : List Statement) (p : Program) : Option (Nat × Nat) × Program :=
  p.spliceAt index 0 ss

/-- Replaces the statement at a place in the body by several, or by none. -/
def replaceWith (index : Nat) (ss : List Statement) (p : Program) : Option (Nat × Nat) × Program :=
  p.spliceAt index 1 ss

/-- Inserts one statement at a place in the body. -/
def insert (index : Nat) (s : Statement) (p : Program) : Option (Nat × Nat) × Program :=
  p.splice index [s]

/-- Inserts text in the first of the listed statements that carries the source byte at `offset`. -/
def insertTextIn? (offset : Nat) (t : String) (p : Program) : List NodeId → Option Program
  | [] => none
  | id :: rest =>
    match (p.node? id).bind fun s => s.insertText? offset t with
    | some s => some { p with nodes := p.nodes.setIfInBounds id s }
    | none => insertTextIn? offset t p rest

/-- Inserts text in front of the source byte at `offset`, in the first statement of the body that
carries it. -/
def insertTextAt? (offset : Nat) (t : String) (p : Program) : Option Program :=
  insertTextIn? offset t p p.body

end Program

end ModuleForge
