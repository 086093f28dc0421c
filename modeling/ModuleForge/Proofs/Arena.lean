import ModuleForge.Program

/-!
# The statements behind a program

`Program.Lists p ss`: the body of `p` names exactly the statements `ss`, in order, each at a place
of its own in the arena. Every change of a program is a change of this list, and the places in the
body that the changes take are places in the list:

- `Lists.spliceAt`, `Lists.replace`, `Lists.push`: a splice, a replacement and an addition.
- `Lists.insertTextAt`: text goes into the first statement that carries the byte, and no other
  statement changes, since no two places of the body share a node.
-/

namespace ModuleForge.Program

/-- The body names exactly the statements `ss`, each by a node of its own. -/
structure Lists (p : Program) (ss : List Statement) : Prop where
  nodes : p.body.map (p.nodes[·]?) = ss.map some
  nodup : p.body.Nodup

variable {p : Program} {ss xs ys zs : List Statement} {s s' : Statement}

theorem lists_empty (span : Span) : (empty span).Lists [] :=
  ⟨rfl, List.nodup_nil⟩

namespace Lists

theorem length (h : p.Lists ss) : p.length = ss.length := by
  have := congrArg List.length h.nodes
  simp only [List.length_map] at this
  exact this

theorem statements (h : p.Lists ss) : p.statements = ss := by
  calc p.statements = (p.body.map (p.nodes[·]?)).filterMap id := by
        rw [List.filterMap_map]; rfl
    _ = ss := by rw [h.nodes]; simp

theorem lt_size (h : p.Lists ss) {id : NodeId} (hid : id ∈ p.body) : id < p.nodes.size := by
  have hmem : p.nodes[id]? ∈ ss.map some := h.nodes ▸ List.mem_map_of_mem hid
  obtain ⟨s, -, hs⟩ := List.mem_map.1 hmem
  exact (Array.getElem?_eq_some_iff.1 hs.symm).1

theorem get? (h : p.Lists (xs ++ s :: ys)) : p.get? xs.length = some s := by
  have hn := congrArg (·[xs.length]?) h.nodes
  simp only [List.getElem?_map, List.map_append, List.map_cons] at hn
  rw [List.getElem?_append_right (by simp)] at hn
  simp only [List.length_map, Nat.sub_self, List.getElem?_cons_zero] at hn
  obtain ⟨id, hid, hs⟩ := Option.map_eq_some_iff.1 hn
  rw [Program.get?, hid]
  exact hs

end Lists

/-! ## Splices -/

theorem getElem?_range' (nodes : Array Statement) (ss : List Statement) :
    (List.range' nodes.size ss.length).map ((nodes ++ ss.toArray)[·]?) = ss.map some := by
  apply List.ext_getElem?
  intro i
  rcases Nat.lt_or_ge i ss.length with hi | hi
  · simp [hi]
  · simp [hi]

theorem getElem?_append_old {nodes new : Array Statement} {ids : List NodeId}
    (h : ∀ id ∈ ids, id < nodes.size) :
    ids.map ((nodes ++ new)[·]?) = ids.map (nodes[·]?) :=
  List.map_congr_left fun id hid => Array.getElem?_append_left (h id hid)

/-- **A splice of the body is a splice of its list.** -/
theorem Lists.spliceAt (h : p.Lists (xs ++ (ys ++ zs))) (ss : List Statement) :
    (p.spliceAt xs.length ys.length ss).2.Lists (xs ++ (ss ++ zs)) := by
  have hn := h.nodes
  simp only [List.map_append] at hn
  obtain ⟨as, rest, hbody, has, hrest⟩ := List.map_eq_append_iff.1 hn
  obtain ⟨bs, cs, rfl, hbs, hcs⟩ := List.map_eq_append_iff.1 hrest
  have hxs : as.length = xs.length := by simpa using congrArg List.length has
  have hys : bs.length = ys.length := by simpa using congrArg List.length hbs
  have hlen : xs.length + ys.length ≤ p.length := by
    rw [h.length]; simp only [List.length_append]; omega
  have hnew : (p.spliceAt xs.length ys.length ss).2 =
      { p with
        nodes := p.nodes ++ ss.toArray
        body := as ++ (List.range' p.nodes.size ss.length ++ cs) } := by
    simp only [Program.spliceAt, allocAll, if_pos hlen, hbody]
    rw [← hxs, ← hys, List.take_left', List.drop_append, List.drop_append]
    · simp
    · rfl
  have hlt : ∀ id : Nat, id ∈ as ++ (bs ++ cs) → id < p.nodes.size :=
    fun id hid => h.lt_size (hbody ▸ hid)
  have hnodup := h.nodup
  rw [hbody] at hnodup
  rw [hnew]
  constructor
  · simp only [List.map_append]
    rw [getElem?_range', getElem?_append_old fun id hid => hlt id (by simp [hid]),
      getElem?_append_old fun id hid => hlt id (by simp [hid]), has, hcs]
  · -- the new places are behind all old ones
    simp only [List.nodup_append, List.mem_append, List.mem_range'_1] at hnodup hlt ⊢
    refine ⟨hnodup.1, ⟨List.nodup_range', hnodup.2.1.2.1, fun a ha b hb => ?_⟩, ?_⟩
    · exact Nat.ne_of_gt (Nat.lt_of_lt_of_le (hlt b (.inr (.inr hb))) ha.1)
    · rintro a ha b (hb | hb)
      · exact Nat.ne_of_lt (Nat.lt_of_lt_of_le (hlt a (.inl ha)) hb.1)
      · exact hnodup.2.2 a ha b (.inr hb)

theorem push_eq (s : Statement) (p : Program) : (p.push s).2 = (p.spliceAt p.length 0 [s]).2 := by
  simp only [push, alloc, spliceAt, allocAll, if_pos (Nat.le_refl p.length), Nat.add_zero]
  rw [show p.length = p.body.length from rfl, List.take_length, List.drop_length]
  simp [List.range'_succ]

theorem replace_eq {index : Nat} (s : Statement) (h : index < p.length) :
    (p.replace index s).2 = (p.spliceAt index 1 [s]).2 := by
  have hle : index + 1 ≤ p.length := h
  simp only [replace, alloc, spliceAt, allocAll, if_pos h, if_pos hle]
  rw [List.set_eq_take_append_cons_drop, if_pos (by exact h)]
  simp [List.range'_succ]

theorem Lists.push (h : p.Lists ss) (s : Statement) : (p.push s).2.Lists (ss ++ [s]) := by
  have h' : p.Lists (ss ++ ([] ++ [])) := by simpa using h
  rw [push_eq, h.length]
  simpa using h'.spliceAt [s]

theorem Lists.replace (h : p.Lists (xs ++ s :: ys)) (s' : Statement) :
    (p.replace xs.length s').2.Lists (xs ++ s' :: ys) := by
  have hlt : xs.length < p.length := by rw [h.length]; simp
  have h' : p.Lists (xs ++ ([s] ++ ys)) := h
  rw [replace_eq s' hlt]
  exact h'.spliceAt [s']

theorem Lists.insert (h : p.Lists (xs ++ ys)) (s : Statement) :
    (p.insert xs.length s).2.Lists (xs ++ s :: ys) := by
  have h' : p.Lists (xs ++ ([] ++ ys)) := h
  exact h'.spliceAt [s]

theorem Lists.replaceWith (h : p.Lists (xs ++ s :: ys)) (ss : List Statement) :
    (p.replaceWith xs.length ss).2.Lists (xs ++ (ss ++ ys)) := by
  have h' : p.Lists (xs ++ ([s] ++ ys)) := h
  exact h'.spliceAt ss

/-! ## Insertions of text -/

theorem insertTextIn?_eq_some {offset : Nat} {t : String} {p' : Program} {ids : List NodeId}
    (h : insertTextIn? offset t p ids = some p') :
    ∃ as id bs s s', ids = as ++ id :: bs ∧ p.nodes[id]? = some s ∧
      s.insertText? offset t = some s' ∧ p' = { p with nodes := p.nodes.setIfInBounds id s' } := by
  induction ids with
  | nil => cases h
  | cons id rest ih =>
    rw [insertTextIn?] at h
    split at h
    · rename_i s' hs'
      obtain ⟨s, hs, hins⟩ := Option.bind_eq_some_iff.1 hs'
      exact ⟨[], id, rest, s, s', rfl, hs, hins, (Option.some.inj h).symm⟩
    · obtain ⟨as, id', bs, s, s', rfl, hs, hins, hp⟩ := ih h
      exact ⟨id :: as, id', bs, s, s', rfl, hs, hins, hp⟩

/-- **An insertion changes one statement of the list**, one that carries the byte. -/
theorem Lists.insertTextAt {offset : Nat} {t : String} {p' : Program} (h : p.Lists ss)
    (hp : p.insertTextAt? offset t = some p') :
    ∃ xs s s' ys, ss = xs ++ s :: ys ∧ s.insertText? offset t = some s' ∧
      p'.Lists (xs ++ s' :: ys) := by
  obtain ⟨as, id, bs, s, s', hbody, hs, hins, rfl⟩ := insertTextIn?_eq_some hp
  have hn := h.nodes
  have hnodup := h.nodup
  rw [hbody, List.map_append, List.map_cons] at hn
  obtain ⟨xs, rest, rfl, hxs, hrest⟩ := List.map_eq_append_iff.1 hn.symm
  obtain ⟨s0, ys, rfl, hs0, hys⟩ := List.map_eq_cons_iff.1 hrest
  obtain rfl : s0 = s := Option.some.inj (hs0.trans hs)
  refine ⟨xs, s0, s', ys, rfl, hins, ?_, h.nodup⟩
  -- no other place of the body has the node that changes
  have hne : ∀ ids : List NodeId, id ∉ ids →
      ids.map ((p.nodes.setIfInBounds id s')[·]?) = ids.map (p.nodes[·]?) := by
    intro ids hid
    refine List.map_congr_left fun i hi => ?_
    rw [Array.getElem?_setIfInBounds_ne]
    rintro rfl
    exact hid hi
  have hlt : id < p.nodes.size := (Array.getElem?_eq_some_iff.1 hs).1
  rw [hbody, List.nodup_append, List.nodup_cons] at hnodup
  have has : id ∉ as := fun ha => hnodup.2.2 id ha id (by simp) rfl
  show p.body.map ((p.nodes.setIfInBounds id s')[·]?) = _
  rw [hbody, List.map_append, List.map_cons, hne as has, hne bs hnodup.2.1.1, ← hxs, ← hys,
    Array.getElem?_setIfInBounds_self_of_lt hlt]
  simp

end ModuleForge.Program
