import ModuleForge.Project.Path
import Mathlib.Data.List.Basic

/-!
# Normal forms of paths

The normal form of a path is determined by its segments, and the segments of a normal form are the
segments of the path (`Path.segments_normalize`). So a path in normal form stays as it is
(`Path.normalize_normalize`), and a name that is appended to one can be taken off again
(`Path.join_name_injective`).
-/

namespace ModuleForge

/-! ## Splitting at a separator -/

namespace Text

variable {c : Char} {part cs : List Char}

theorem splitWhere_ne_nil (separates : Char → Bool) (cs : List Char) :
    splitWhere separates cs ≠ [] := by
  cases cs with
  | nil => simp [splitWhere]
  | cons d cs =>
    rw [splitWhere]
    split
    · simp
    · cases splitWhere separates cs <;> simp [extendFirst]

theorem splitWhere_append {separates : Char → Bool} (hc : separates c = true) (cs ds : List Char) :
    splitWhere separates (cs ++ c :: ds) = splitWhere separates cs ++ splitWhere separates ds := by
  induction cs with
  | nil => simp [splitWhere, hc]
  | cons d cs ih =>
    rw [List.cons_append, splitWhere, splitWhere, ih]
    split
    · rfl
    · obtain ⟨first, rest, h⟩ := List.exists_cons_of_ne_nil (splitWhere_ne_nil separates cs)
      rw [h]
      rfl

theorem splitOn_ne_nil (c : Char) (cs : List Char) : splitOn c cs ≠ [] :=
  splitWhere_ne_nil _ cs

theorem splitOn_append (c : Char) (cs ds : List Char) :
    splitOn c (cs ++ c :: ds) = splitOn c cs ++ splitOn c ds :=
  @splitWhere_append c (· == c) (beq_self_eq_true c) cs ds

theorem splitWhere_of_forall {separates : Char → Bool} (h : ∀ c ∈ cs, separates c = false) :
    splitWhere separates cs = [cs] := by
  induction cs with
  | nil => rfl
  | cons d cs ih =>
    obtain ⟨hd, hcs⟩ := List.forall_mem_cons.1 h
    rw [splitWhere, if_neg (by simp [hd]), ih hcs]
    rfl

theorem splitOn_of_notMem (h : c ∉ cs) : splitOn c cs = [cs] :=
  splitWhere_of_forall fun _ hd => beq_eq_false_iff_ne.2 fun hc => h (hc ▸ hd)

theorem notMem_of_mem_splitOn (h : part ∈ splitOn c cs) : c ∉ part := by
  induction cs generalizing part with
  | nil =>
    obtain rfl := List.mem_singleton.1 h
    exact List.not_mem_nil
  | cons d cs ih =>
    rw [splitOn, splitWhere] at h
    split at h
    · obtain rfl | h := List.mem_cons.1 h
      · exact List.not_mem_nil
      · exact ih h
    · rename_i hd
      obtain ⟨first, rest, hsplit⟩ := List.exists_cons_of_ne_nil (splitOn_ne_nil c cs)
      rw [splitOn] at hsplit
      rw [hsplit] at h
      have hparts : ∀ p ∈ first :: rest, c ∉ p := fun p hp => ih (by rw [splitOn, hsplit]; exact hp)
      obtain rfl | h := List.mem_cons.1 h
      · rw [List.mem_cons, not_or]
        exact ⟨fun hc => hd (by simp [hc]), hparts first List.mem_cons_self⟩
      · exact hparts part (List.mem_cons_of_mem _ h)

end Text

namespace Path

variable {segs : List (List Char)} {seg : List Char} {path base : String}

/-! ## Segments -/

/-- A segment of a normal form. -/
structure IsSegment (seg : List Char) : Prop where
  ne_nil : seg ≠ []
  ne_dot : seg ≠ ['.']
  ne_dots : seg ≠ ['.', '.']
  slash : '/' ∉ seg

theorem step_of_isSegment (h : IsSegment seg) : step segs seg = segs ++ [seg] := by
  simp [step, h.ne_nil, h.ne_dot, h.ne_dots]

theorem foldl_step_of_isSegment {more : List (List Char)} (h : ∀ seg ∈ more, IsSegment seg) :
    more.foldl step segs = segs ++ more := by
  induction more generalizing segs with
  | nil => simp
  | cons seg more ih =>
    obtain ⟨hseg, hmore⟩ := List.forall_mem_cons.1 h
    rw [List.foldl_cons, step_of_isSegment hseg, ih hmore, List.append_assoc, List.singleton_append]

theorem isSegment_of_mem_foldl {parts : List (List Char)} (hparts : ∀ part ∈ parts, '/' ∉ part)
    (hsegs : ∀ seg ∈ segs, IsSegment seg) : ∀ seg ∈ parts.foldl step segs, IsSegment seg := by
  induction parts generalizing segs with
  | nil => exact hsegs
  | cons part parts ih =>
    obtain ⟨hpart, hparts⟩ := List.forall_mem_cons.1 hparts
    refine ih hparts fun seg hseg => ?_
    unfold step at hseg
    split at hseg
    · exact hsegs seg hseg
    · rename_i hplain
      split at hseg
      · exact hsegs seg (List.dropLast_subset segs hseg)
      · rename_i hdots
        simp only [Bool.or_eq_true, decide_eq_true_eq, not_or] at hplain
        obtain hseg | hseg := List.mem_append.1 hseg
        · exact hsegs seg hseg
        · obtain rfl := List.mem_singleton.1 hseg
          exact ⟨hplain.1, hplain.2, hdots, hpart⟩

theorem isSegment_of_mem_segments (cs : List Char) : ∀ seg ∈ segments cs, IsSegment seg :=
  isSegment_of_mem_foldl (fun _ => Text.notMem_of_mem_splitOn) (by simp)

theorem segments_append (cs ds : List Char) :
    segments (cs ++ '/' :: ds) = (Text.splitOn '/' ds).foldl step (segments cs) := by
  rw [segments, Text.splitOn_append, List.foldl_append, segments]

theorem splitOn_intercalate (hseg : '/' ∉ seg) (hsegs : ∀ seg ∈ segs, '/' ∉ seg) :
    Text.splitOn '/' (['/'].intercalate (seg :: segs)) = seg :: segs := by
  induction segs generalizing seg with
  | nil => simpa using Text.splitOn_of_notMem hseg
  | cons next segs ih =>
    obtain ⟨hnext, hsegs⟩ := List.forall_mem_cons.1 hsegs
    rw [List.intercalate_cons_cons, List.append_assoc, List.singleton_append, Text.splitOn_append,
      Text.splitOn_of_notMem hseg, ih hnext hsegs, List.singleton_append]

/-- **A normal form has the segments that it is made of.** -/
theorem segments_ofSegments (h : ∀ seg ∈ segs, IsSegment seg) : segments (ofSegments segs) = segs := by
  have hstart : segments (ofSegments segs) =
      (Text.splitOn '/' (['/'].intercalate segs)).foldl step [] :=
    segments_append [] _
  rw [hstart]
  cases segs with
  | nil => rfl
  | cons seg segs =>
    have hslash := fun seg hseg => (h seg hseg).slash
    rw [splitOn_intercalate (hslash seg List.mem_cons_self) fun s hs =>
      hslash s (List.mem_cons_of_mem _ hs), foldl_step_of_isSegment h, List.nil_append]

/-! ## Normal forms -/

theorem segments_normalize (path : String) :
    segments (normalize path).toList = segments path.toList := by
  rw [normalize, String.toList_ofList, segments_ofSegments (isSegment_of_mem_segments _)]

/-- **A normal form is its own normal form.** -/
theorem normalize_normalize (path : String) : normalize (normalize path) = normalize path := by
  rw [normalize, segments_normalize, normalize]

theorem normalize_join (base relative : String) :
    normalize (join base relative) = join base relative := by
  unfold join
  split <;> exact normalize_normalize _

theorem segments_join_name {name : String} (h : IsSegment name.toList) :
    segments (join base name).toList = segments base.toList ++ [name.toList] := by
  have hrelative : ¬ name.toList.head? = some '/' := by
    intro hhead
    exact h.slash (List.mem_of_head? hhead)
  rw [join, if_neg hrelative, segments_normalize, String.toList_append, String.toList_append,
    List.append_assoc]
  exact (segments_append base.toList name.toList).trans
    (by rw [Text.splitOn_of_notMem h.slash, List.foldl_cons, List.foldl_nil, step_of_isSegment h])

theorem eq_of_segments_eq (hpath : normalize path = path) (hbase : normalize base = base)
    (h : segments path.toList = segments base.toList) : path = base := by
  rw [← hpath, ← hbase, normalize, normalize, h]

theorem join_name_injective {name : String} (hname : IsSegment name.toList)
    (hpath : normalize path = path) (hbase : normalize base = base)
    (h : join path name = join base name) : path = base := by
  refine eq_of_segments_eq hpath hbase ?_
  have hsegments : segments (join path name).toList = segments (join base name).toList := by rw [h]
  rw [segments_join_name hname, segments_join_name hname] at hsegments
  exact List.append_cancel_right hsegments

end Path

end ModuleForge
