import ModuleForge.Proofs.Arena

/-!
# Programs after any history of changes

A program is changed by additions, replacements, splices and insertions of text, one behind another.
A change whose place is past the end of the body fails, but its statements are in the arena by then.

- `Change.apply`: a change of a program and what it answers.
- `Program.Records`: the arena holds what was put there, and the body names nodes of it, each once.
  `Records.apply` is the step of one change, `Records.run` the history.
- `Program.Lists.apply_outOfRange`: a change that fails leaves the body as it was.
- `Program.run_arena`: the arena after every history of changes, and the answer of the next one.
-/

namespace ModuleForge

/-- A change of a program. -/
inductive Change where
  | push (s : Statement)
  | replace (index : Nat) (s : Statement)
  | splice (index : Nat) (ss : List Statement)
  | replaceWith (index : Nat) (ss : List Statement)
  | insert (index : Nat) (s : Statement)
  | insertText (offset : Nat) (t : String)
  deriving DecidableEq, Repr

namespace Change

/-- What a change answers. -/
inductive Answer where
  | node (id : NodeId)
  | range (start stop : Nat)
  | found (b : Bool)
  | outOfRange
  deriving DecidableEq, Repr

def Answer.ofNode? (id : Option NodeId) : Answer := id.elim outOfRange node

def Answer.ofRange? (r : Option (Nat × Nat)) : Answer := r.elim outOfRange fun r => range r.1 r.2

/-- **The change**, and its answer. -/
def apply : Change → Program → Answer × Program
  | push s, p => (.node (p.push s).1, (p.push s).2)
  | replace index s, p => (.ofNode? (p.replace index s).1, (p.replace index s).2)
  | splice index ss, p => (.ofRange? (p.splice index ss).1, (p.splice index ss).2)
  | replaceWith index ss, p => (.ofRange? (p.replaceWith index ss).1, (p.replaceWith index ss).2)
  | insert index s, p => (.ofRange? (p.insert index s).1, (p.insert index s).2)
  | insertText offset t, p =>
    (.found (p.insertTextAt? offset t).isSome, (p.insertTextAt? offset t).getD p)

/-- The statements that a change puts into the arena. -/
def statements : Change → List Statement
  | push s => [s]
  | replace _ s => [s]
  | splice _ ss => ss
  | replaceWith _ ss => ss
  | insert _ s => [s]
  | insertText _ _ => []

/-- Where a change puts its statements into the body, and in place of how many. -/
def place? (p : Program) : Change → Option (Nat × Nat)
  | push _ => some (p.length, 0)
  | replace index _ => some (index, 1)
  | splice index _ => some (index, 0)
  | replaceWith index _ => some (index, 1)
  | insert index _ => some (index, 0)
  | insertText _ _ => none

/-- The node that an insertion of text reaches: the first of the body that carries the byte. -/
def reached (p : Program) : Change → List NodeId
  | insertText offset t =>
    (p.body.find? fun id => ((p.node? id).bind (·.insertText? offset t)).isSome).toList
  | _ => []

end Change

namespace Program

variable {c : Change} {index removed : Nat}

/-- The program after the changes, one behind another. -/
def run (changes : List Change) (p : Program) : Program :=
  changes.foldl (fun p c => (c.apply p).2) p

/-- The nodes that insertions of text reach while the changes are made. -/
def reached : List Change → Program → List NodeId
  | [], _ => []
  | c :: changes, p => c.reached p ++ reached changes (c.apply p).2

variable {p : Program} {allocated ss xs : List Statement} {touched : List NodeId}

/-! ## What a splice does to the program -/

theorem spliceAt_of_lt (h : p.length < index + removed) :
    p.spliceAt index removed ss = (none, { p with nodes := p.nodes ++ ss.toArray }) := by
  simp only [spliceAt, allocAll, if_neg (Nat.not_le.2 h)]

theorem spliceAt_of_le (h : index + removed ≤ p.length) :
    p.spliceAt index removed ss = (some (index, index + ss.length),
      { p with
        nodes := p.nodes ++ ss.toArray
        body := p.body.take index ++ List.range' p.nodes.size ss.length ++
          p.body.drop (index + removed) }) := by
  simp only [spliceAt, allocAll, if_pos h]

theorem ofRange?_spliceAt :
    Change.Answer.ofRange? (p.spliceAt index removed ss).1 = .outOfRange ↔
      p.length < index + removed := by
  rcases Nat.lt_or_ge p.length (index + removed) with h | h
  · rw [spliceAt_of_lt h]
    exact iff_of_true rfl h
  · rw [spliceAt_of_le h]
    exact iff_of_false Change.Answer.noConfusion (Nat.not_lt.2 h)

theorem replace_of_le (s : Statement) (h : p.length ≤ index) :
    p.replace index s = (none, { p with nodes := p.nodes.push s }) := by
  simp only [replace, alloc, if_neg (Nat.not_lt.2 h)]

theorem replace_fst_of_lt (s : Statement) (h : index < p.length) :
    (p.replace index s).1 = some p.nodes.size := by
  simp only [replace, alloc, if_pos h]

/-- All changes but the insertions of text are splices. -/
theorem apply_of_place? (h : c.place? p = some (index, removed)) :
    (c.apply p).2 = (p.spliceAt index removed c.statements).2 ∧
      ((c.apply p).1 = .outOfRange ↔ p.length < index + removed) := by
  cases c with
  | push s =>
    obtain ⟨rfl, rfl⟩ := Prod.mk.inj (Option.some.inj h)
    exact ⟨push_eq s p, iff_of_false Change.Answer.noConfusion (Nat.lt_irrefl _)⟩
  | replace i s =>
    obtain ⟨rfl, rfl⟩ := Prod.mk.inj (Option.some.inj h)
    rcases Nat.lt_or_ge i p.length with hlt | hle
    · refine ⟨replace_eq s hlt, iff_of_false ?_ (Nat.not_lt.2 hlt)⟩
      rw [Change.apply, replace_fst_of_lt s hlt]
      exact Change.Answer.noConfusion
    · have hout : p.length < i + 1 := Nat.lt_succ_of_le hle
      rw [Change.apply, replace_of_le s hle, spliceAt_of_lt hout]
      exact ⟨by simp [Change.statements], iff_of_true rfl hout⟩
  | splice i ss =>
    obtain ⟨rfl, rfl⟩ := Prod.mk.inj (Option.some.inj h)
    exact ⟨rfl, ofRange?_spliceAt⟩
  | replaceWith i ss =>
    obtain ⟨rfl, rfl⟩ := Prod.mk.inj (Option.some.inj h)
    exact ⟨rfl, ofRange?_spliceAt⟩
  | insert i s =>
    obtain ⟨rfl, rfl⟩ := Prod.mk.inj (Option.some.inj h)
    exact ⟨rfl, ofRange?_spliceAt⟩
  | insertText offset t => cases h

/-- **An insertion of text reaches the first node that carries the byte**, and only this one. -/
theorem insertTextIn?_cases (offset : Nat) (t : String) (p : Program) (ids : List NodeId) :
    (∃ id s', (ids.find? fun id => ((p.node? id).bind (·.insertText? offset t)).isSome) = some id ∧
      insertTextIn? offset t p ids = some { p with nodes := p.nodes.setIfInBounds id s' }) ∨
    insertTextIn? offset t p ids = none := by
  induction ids with
  | nil => exact .inr rfl
  | cons id rest ih =>
    rw [insertTextIn?]
    cases hs : (p.node? id).bind (·.insertText? offset t) with
    | some s' => exact .inl ⟨id, s', by rw [List.find?_cons, hs]; rfl, rfl⟩
    | none => rwa [List.find?_cons, hs]

/-! ## What the arena records -/

theorem Lists.get?_eq (h : p.Lists ss) (index : Nat) : p.get? index = ss[index]? := by
  have hn := congrArg (·[index]?) h.nodes
  simp only [List.getElem?_map] at hn
  rw [Program.get?]
  cases hid : p.body[index]? with
  | none =>
    rw [hid] at hn
    exact (Option.map_eq_none_iff.1 hn.symm).symm
  | some id =>
    rw [hid] at hn
    obtain ⟨s, hs, hnode⟩ := Option.map_eq_some_iff.1 hn.symm
    rw [hs]
    exact hnode.symm

theorem Lists.append (h : p.Lists ss) (new : Array Statement) :
    Lists { p with nodes := p.nodes ++ new } ss :=
  ⟨(getElem?_append_old fun _ => h.lt_size).trans h.nodes, h.nodup⟩

theorem Lists.spliceAt_of_le (h : p.Lists xs) (hle : index + removed ≤ p.length)
    (ss : List Statement) :
    (p.spliceAt index removed ss).2.Lists (xs.take index ++ (ss ++ xs.drop (index + removed))) := by
  rw [h.length] at hle
  have hsplit : xs.take index ++ ((xs.drop index).take removed ++ xs.drop (index + removed)) = xs := by
    rw [← List.drop_drop, List.take_append_drop, List.take_append_drop]
  have hindex : (xs.take index).length = index := by rw [List.length_take]; omega
  have hremoved : ((xs.drop index).take removed).length = removed := by
    rw [List.length_take, List.length_drop]; omega
  rw [← hsplit] at h
  have := h.spliceAt ss
  rwa [hindex, hremoved] at this

/-- The statements in the arena are those that were put there, in this order and as they were but for
the nodes that were reached, and the body names nodes of it, each once. -/
structure Records (p : Program) (allocated : List Statement) (touched : List NodeId) : Prop where
  size : p.nodes.size = allocated.length
  lists : ∃ ss, p.Lists ss
  kept : ∀ id, id ∉ touched → p.node? id = allocated[id]?

namespace Records

theorem empty (span : Span) : (Program.empty span).Records [] [] where
  size := rfl
  lists := ⟨[], lists_empty span⟩
  kept _ _ := rfl

theorem kept_append (h : p.Records allocated touched) (ss : List Statement) {id : NodeId}
    (hid : id ∉ touched) : (p.nodes ++ ss.toArray)[id]? = (allocated ++ ss)[id]? := by
  have hkept : p.nodes[id]? = allocated[id]? := h.kept id hid
  rw [Array.getElem?_append, List.getElem?_append, h.size, hkept, List.getElem?_toArray]

theorem size_append (h : p.Records allocated touched) (ss : List Statement) :
    (p.nodes ++ ss.toArray).size = (allocated ++ ss).length := by
  rw [Array.size_append, h.size, List.length_append, List.size_toArray]

/-- A splice puts its statements into the arena, whether its place is in the body or not. -/
theorem spliceAt (h : p.Records allocated touched) (index removed : Nat) (ss : List Statement) :
    Records (p.spliceAt index removed ss).2 (allocated ++ ss) touched := by
  obtain ⟨all, hall⟩ := h.lists
  rcases Nat.lt_or_ge p.length (index + removed) with hout | hle
  · rw [spliceAt_of_lt hout]
    exact ⟨h.size_append ss, ⟨all, hall.append ss.toArray⟩, fun _ => h.kept_append ss⟩
  · have hlists := hall.spliceAt_of_le hle ss
    rw [spliceAt_of_le hle] at hlists ⊢
    exact ⟨h.size_append ss, ⟨_, hlists⟩, fun _ => h.kept_append ss⟩

theorem insertText (h : p.Records allocated touched) (offset : Nat) (t : String) :
    Records ((p.insertTextAt? offset t).getD p) allocated
      (touched ++ (Change.insertText offset t).reached p) := by
  obtain ⟨ss, hss⟩ := h.lists
  rcases insertTextIn?_cases offset t p p.body with ⟨id, s', hfind, hinsert⟩ | hnone
  · obtain ⟨xs, s, s'', ys, -, -, hlists⟩ := hss.insertTextAt hinsert
    rw [insertTextAt?, hinsert, Change.reached, hfind]
    refine ⟨(Array.size_setIfInBounds ..).trans h.size, ⟨_, hlists⟩, fun i hi => ?_⟩
    simp only [Option.toList_some, List.mem_append, List.mem_singleton, not_or] at hi
    exact (Array.getElem?_setIfInBounds_ne (Ne.symm hi.2)).trans (h.kept i hi.1)
  · rw [insertTextAt?, hnone]
    exact ⟨h.size, h.lists, fun i hi => h.kept i fun hmem => hi (List.mem_append_left _ hmem)⟩

/-- **Each change is recorded.** -/
theorem apply (h : p.Records allocated touched) (c : Change) :
    Records (c.apply p).2 (allocated ++ c.statements) (touched ++ c.reached p) := by
  cases hplace : c.place? p with
  | some place =>
    have hreached : c.reached p = [] := by
      cases c with
      | insertText offset t => cases hplace
      | _ => rfl
    rw [(apply_of_place? hplace).1, hreached, List.append_nil]
    exact h.spliceAt place.1 place.2 c.statements
  | none =>
    cases c with
    | insertText offset t =>
      have := h.insertText offset t
      rwa [← List.append_nil allocated] at this
    | _ => cases hplace

/-- **A history of changes is recorded**, by induction on it. -/
theorem run (h : p.Records allocated touched) (changes : List Change) :
    Records (Program.run changes p) (allocated ++ changes.flatMap Change.statements)
      (touched ++ reached changes p) := by
  induction changes generalizing p allocated touched with
  | nil =>
    rw [List.flatMap_nil, reached, List.append_nil, List.append_nil]
    exact h
  | cons c changes ih =>
    have := ih (h.apply c)
    rwa [List.append_assoc, List.append_assoc] at this

end Records

/-! ## Answers -/

/-- From `start` up to `stop` the body of `p'` has the statements `ss`; they stand there in place of
`removed` statements of `p`, and all others are as they were. -/
structure Spliced (p p' : Program) (start stop removed : Nat) (ss : List Statement) : Prop where
  inRange : start + removed ≤ p.length
  before : p'.statements.take start = p.statements.take start
  placed : (p'.statements.take stop).drop start = ss
  after : p'.statements.drop stop = p.statements.drop (start + removed)

theorem Lists.spliced (h : p.Lists xs) {index removed : Nat} (hle : index + removed ≤ p.length)
    (ss : List Statement) :
    Spliced p (p.spliceAt index removed ss).2 index (index + ss.length) removed ss := by
  have hnew := (h.spliceAt_of_le hle ss).statements
  have hindex : (xs.take index).length = index := by
    rw [h.length] at hle
    rw [List.length_take]
    omega
  rw [← List.append_assoc] at hnew
  have hstop : (xs.take index ++ ss).length = index + ss.length := by rw [List.length_append, hindex]
  refine ⟨hle, ?_, ?_, ?_⟩
  · rw [hnew, h.statements, List.append_assoc, List.take_left' hindex]
  · rw [hnew, List.take_left' hstop, List.drop_left' hindex]
  · rw [hnew, h.statements, List.drop_left' hstop]

theorem ofRange?_eq_range {start stop : Nat}
    (h : Change.Answer.ofRange? (p.spliceAt index removed ss).1 = .range start stop) :
    index = start ∧ stop = start + ss.length ∧ start + removed ≤ p.length := by
  rcases Nat.lt_or_ge p.length (index + removed) with hout | hle
  · rw [spliceAt_of_lt hout] at h
    cases h
  · rw [spliceAt_of_le hle] at h
    obtain ⟨rfl, rfl⟩ := Change.Answer.range.inj h
    exact ⟨rfl, rfl, hle⟩

/-- The answer of a splice is the range that its statements take. -/
theorem apply_eq_range {start stop : Nat} (h : (c.apply p).1 = .range start stop) :
    ∃ removed, c.place? p = some (start, removed) ∧ stop = start + c.statements.length ∧
      start + removed ≤ p.length := by
  cases c with
  | push s => cases h
  | replace i s =>
    rw [Change.apply] at h
    cases hid : (p.replace i s).1 <;> rw [hid] at h <;> cases h
  | splice i ss =>
    obtain ⟨rfl, hstop, hle⟩ := ofRange?_eq_range h
    exact ⟨0, rfl, hstop, hle⟩
  | replaceWith i ss =>
    obtain ⟨rfl, hstop, hle⟩ := ofRange?_eq_range h
    exact ⟨1, rfl, hstop, hle⟩
  | insert i s =>
    obtain ⟨rfl, hstop, hle⟩ := ofRange?_eq_range h
    exact ⟨0, rfl, hstop, hle⟩
  | insertText offset t => cases h

theorem ofRange?_ne_node (r : Option (Nat × Nat)) (id : NodeId) :
    Change.Answer.ofRange? r ≠ .node id := by
  cases r <;> exact Change.Answer.noConfusion

theorem apply_eq_node {id : NodeId} (h : (c.apply p).1 = .node id) : id = p.nodes.size := by
  cases c with
  | push s => exact (Change.Answer.node.inj h).symm
  | replace i s =>
    rcases Nat.lt_or_ge i p.length with hlt | hle
    · rw [Change.apply, replace_fst_of_lt s hlt] at h
      exact (Change.Answer.node.inj h).symm
    · rw [Change.apply, replace_of_le s hle] at h
      cases h
  | splice i ss => exact absurd h (ofRange?_ne_node _ id)
  | replaceWith i ss => exact absurd h (ofRange?_ne_node _ id)
  | insert i s => exact absurd h (ofRange?_ne_node _ id)
  | insertText offset t => cases h

theorem apply_eq_outOfRange_iff : (c.apply p).1 = .outOfRange ↔
    ∃ index removed, c.place? p = some (index, removed) ∧ p.length < index + removed := by
  constructor
  · intro h
    cases hplace : c.place? p with
    | some place => exact ⟨place.1, place.2, rfl, (apply_of_place? hplace).2.1 h⟩
    | none =>
      cases c with
      | insertText offset t => cases h
      | _ => cases hplace
  · rintro ⟨index, removed, hplace, hlt⟩
    exact (apply_of_place? hplace).2.2 hlt

/-- **A change that fails leaves the body as it was**, though its statements are in the arena. -/
theorem Lists.apply_outOfRange (h : p.Lists xs) (hout : (c.apply p).1 = .outOfRange) :
    (c.apply p).2.body = p.body ∧ (c.apply p).2.length = p.length ∧
      ∀ index, (c.apply p).2.get? index = p.get? index := by
  obtain ⟨index, removed, hplace, hlt⟩ := apply_eq_outOfRange_iff.1 hout
  rw [(apply_of_place? hplace).1, spliceAt_of_lt hlt]
  refine ⟨rfl, rfl, fun i => ?_⟩
  rw [(h.append c.statements.toArray).get?_eq, h.get?_eq]

/-- **The arena is in order after every history of changes**, and the next change answers as it
should: the body names nodes of the arena, each once; the nodes are those that were put there, also by
changes that failed, and the next one gets the next place; those that no insertion of text reached
are as they were. A change whose place is not in the body fails and leaves the body as it was, and the
range that a splice answers is the one that its statements take. -/
theorem run_arena (span : Span) (changes : List Change) (c : Change) :
    let allocated := changes.flatMap Change.statements
    let p := run changes (empty span)
    let p' := (c.apply p).2
    (∀ id ∈ p.body, id < p.nodes.size) ∧ p.body.Nodup ∧ p.nodes.size = allocated.length ∧
      (∀ id, id ∉ reached changes (empty span) → p.node? id = allocated[id]?) ∧
      (∀ id, (c.apply p).1 = .node id → id = allocated.length) ∧
      ((c.apply p).1 = .outOfRange ↔
        ∃ index removed, c.place? p = some (index, removed) ∧ p.length < index + removed) ∧
      ((c.apply p).1 = .outOfRange →
        p'.body = p.body ∧ p'.length = p.length ∧ ∀ index, p'.get? index = p.get? index) ∧
      ∀ start stop, (c.apply p).1 = .range start stop →
        ∃ removed, c.place? p = some (start, removed) ∧
          Spliced p p' start stop removed c.statements := by
  intro allocated p p'
  have hrecords : p.Records allocated (reached changes (empty span)) :=
    (Records.empty span).run changes
  obtain ⟨ss, hss⟩ := hrecords.lists
  refine ⟨fun id => hss.lt_size, hss.nodup, hrecords.size, hrecords.kept, fun id hid => ?_,
    apply_eq_outOfRange_iff, hss.apply_outOfRange, fun start stop hrange => ?_⟩
  · exact (apply_eq_node hid).trans hrecords.size
  · obtain ⟨removed, hplace, rfl, hle⟩ := apply_eq_range hrange
    refine ⟨removed, hplace, ?_⟩
    show Spliced p (c.apply p).2 _ _ _ _
    rw [(apply_of_place? hplace).1]
    exact hss.spliced hle c.statements

/-- A replacement past the end fails, and still the statement behind it gets the node after its own. -/
theorem run_arena_failedReplacement :
    let p := run [.push .moduleMarker, .replace 5 (.interopHelper "a"), .push (.interopHelper "b")]
      (empty ⟨0, 0⟩)
    let c := Change.replaceWith 0 [.interopHelper "c", .interopHelper "d"]
    p.body = [0, 2] ∧ (c.apply p).1 = .range 0 2 ∧
      ∃ removed, c.place? p = some (0, removed) ∧
        Spliced p (c.apply p).2 0 2 removed [.interopHelper "c", .interopHelper "d"] := by
  intro p c
  obtain ⟨-, -, -, -, -, -, -, hrange⟩ := run_arena ⟨0, 0⟩
    [.push .moduleMarker, .replace 5 (.interopHelper "a"), .push (.interopHelper "b")] c
  have hanswer : (c.apply p).1 = .range 0 2 := by decide
  exact ⟨by decide, hanswer, hrange 0 2 hanswer⟩

end Program

end ModuleForge
