import ModuleForge.Package.Manifest
import ModuleForge.Proofs.Entries
import ModuleForge.Proofs.JsonText
import ModuleForge.Task.Wire

/-!
# Messages are read back

Every message is read as it was written, and a message that was read stays the same when it is written
and read again, whatever it left out or had too much (`Json.RoundTrips`, `messages_roundTrip`).

A type's JSON form has to do three things for this (`Json.Carries`): its values are decoded from what
encodes them, what encodes them has a text, and only values of the type are decoded. For values that a
manifest keeps as they are the last one means that they are in normal form.
-/

namespace ModuleForge

namespace Json

variable {α : Type} {j : Json} {n : Nat}

/-! ## Values that are kept -/

theorem normalizeItems_eq_map (items : List Json) : normalizeItems items = items.map normalize := by
  induction items with
  | nil => rfl
  | cons item items ih => rw [normalizeItems, ih, List.map_cons]

theorem normalizeMembers_eq_map (members : List (String × Json)) :
    normalizeMembers members = members.map fun member => (member.1, member.2.normalize) := by
  induction members with
  | nil => rfl
  | cons member members ih => rw [normalizeMembers, ih, List.map_cons]

theorem depthOfItems_le_iff {items : List Json} :
    depthOfItems items ≤ n ↔ ∀ item ∈ items, item.depth ≤ n := by
  induction items with
  | nil => simp [depthOfItems]
  | cons item items ih => simp [depthOfItems, ih]

theorem depthOfMembers_le_iff {members : List (String × Json)} :
    depthOfMembers members ≤ n ↔ ∀ member ∈ members, member.2.depth ≤ n := by
  induction members with
  | nil => simp [depthOfMembers]
  | cons member members ih =>
    obtain ⟨key, value⟩ := member
    simp only [depthOfMembers, Nat.max_le, ih, List.forall_mem_cons]

theorem exists_of_mem_normalize {members : List (String × Json)} {member : String × Json}
    (h : member ∈ (Dictionary.ofList (normalizeMembers members)).entries) :
    ∃ m ∈ members, m.1 = member.1 ∧ m.2.normalize = member.2 := by
  have hmem := Dictionary.mem_of_mem_ofList h
  rw [normalizeMembers_eq_map, List.mem_map] at hmem
  obtain ⟨m, hm, rfl⟩ := hmem
  exact ⟨m, hm, rfl, rfl⟩

/-- **A normal form is its own normal form.** -/
theorem normalize_normalize (j : Json) : j.normalize.normalize = j.normalize := by
  induction j using Json.induct with
  | array items ih =>
    rw [normalize, normalize, normalizeItems_eq_map, normalizeItems_eq_map, List.map_map]
    exact congrArg Json.array (List.map_congr_left ih)
  | object members ih =>
    have hentries : normalizeMembers (Dictionary.ofList (normalizeMembers members)).entries =
        (Dictionary.ofList (normalizeMembers members)).entries := by
      rw [normalizeMembers_eq_map]
      refine (List.map_congr_left fun member hmember => ?_).trans (List.map_id _)
      obtain ⟨m, hm, hkey, hvalue⟩ := exists_of_mem_normalize hmember
      rw [← hvalue, ih m hm, hvalue]
      rfl
    rw [normalize, normalize, hentries, Dictionary.ofList_entries]
  | _ => rfl

theorem isUsable_normalize (h : j.isUsable = true) : j.normalize.isUsable = true := by
  induction j using Json.induct with
  | array items ih =>
    rw [isUsable, areUsableItems_iff] at h
    rw [normalize, isUsable, areUsableItems_iff, normalizeItems_eq_map]
    exact List.forall_mem_map.2 fun item hitem => ih item hitem (h item hitem)
  | object members ih =>
    rw [isUsable, areUsableMembers_iff] at h
    rw [normalize, isUsable, areUsableMembers_iff]
    intro member hmember
    obtain ⟨m, hm, -, hvalue⟩ := exists_of_mem_normalize hmember
    exact hvalue ▸ ih m hm (h m hm)
  | _ => exact h

theorem depth_normalize_le (j : Json) : j.normalize.depth ≤ j.depth := by
  induction j using Json.induct with
  | array items ih =>
    rw [normalize, depth, depth, normalizeItems_eq_map]
    refine Nat.succ_le_succ (depthOfItems_le_iff.2 (List.forall_mem_map.2 fun item hitem => ?_))
    exact Nat.le_trans (ih item hitem) (depthOfItems_le_iff.1 (Nat.le_refl _) item hitem)
  | object members ih =>
    rw [normalize, depth, depth]
    refine Nat.succ_le_succ (depthOfMembers_le_iff.2 fun member hmember => ?_)
    obtain ⟨m, hm, -, hvalue⟩ := exists_of_mem_normalize hmember
    rw [← hvalue]
    exact Nat.le_trans (ih m hm) (depthOfMembers_le_iff.1 (Nat.le_refl _) m hm)
  | _ => exact Nat.le_refl _

theorem NumbersFit.normalize (h : NumbersFit j) : NumbersFit j.normalize := by
  induction j using Json.induct with
  | array items ih =>
    rw [Json.normalize, numbersFit_array, normalizeItems_eq_map]
    exact List.forall_mem_map.2 fun item hitem => ih item hitem (numbersFit_array.1 h item hitem)
  | object members ih =>
    rw [Json.normalize, numbersFit_object]
    intro member hmember
    obtain ⟨m, hm, -, hvalue⟩ := exists_of_mem_normalize hmember
    exact hvalue ▸ ih m hm (numbersFit_object.1 h m hm)
  | _ => exact h

/-- A value as a manifest keeps it: usable, not nested too deeply, in normal form, and with numbers of
64 bits. -/
structure IsKeptValue (around : Nat) (j : Json) : Prop where
  kept : j.isKept around = true
  normal : j.normalize = j
  fits : NumbersFit j

theorem IsKeptValue.decodeKept {around : Nat} {j : Json} (h : IsKeptValue around j) :
    decodeKept around j = some j := by
  rw [Json.decodeKept, if_pos h.kept, h.normal]

theorem isKeptValue_of_decodeKept {around : Nat} {kept : Json} (hfits : NumbersFit j)
    (h : decodeKept around j = some kept) : IsKeptValue around kept := by
  unfold decodeKept at h
  split at h
  · rename_i hkept
    cases h
    simp only [isKept, Bool.and_eq_true, decide_eq_true_eq] at hkept
    have hdepth := depth_normalize_le j
    refine ⟨?_, normalize_normalize j, hfits.normalize⟩
    simp only [isKept, Bool.and_eq_true, decide_eq_true_eq]
    exact ⟨isUsable_normalize hkept.1, by omega⟩
  · cases h

/-! ## Lists, dictionaries and records -/

theorem decodeList_map {encode : α → Json} {decode : Json → Option α} {as : List α}
    (h : ∀ a ∈ as, decode (encode a) = some a) :
    decodeList decode (.array (as.map encode)) = some as := mapM_map h

theorem decodeDictionary_ofMap {encode : α → Json} {decode : Json → Option α} {d : Dictionary α}
    (h : ∀ entry ∈ d.entries, decode (encode entry.2) = some entry.2) :
    decodeDictionary decode (.ofMap encode d.entries) = some d := by
  have hentries : (d.entries.map fun entry => (entry.1, encode entry.2)).mapM
      (fun member : String × Json => (decode member.2).map (member.1, ·)) = some d.entries :=
    mapM_map fun entry hentry => by rw [h entry hentry]; rfl
  rw [ofMap, decodeDictionary]
  exact (congrArg (Option.map Dictionary.ofList) hentries).trans
    (congrArg some (Dictionary.ofList_entries d))

theorem decodeList_ofStrings (names : List String) :
    decodeList decodeString (.ofStrings names) = some names :=
  decodeList_map fun _ _ => rfl

theorem decodeDictionary_texts (d : Dictionary String) :
    decodeDictionary decodeString (.ofMap .string d.entries) = some d :=
  decodeDictionary_ofMap fun _ _ => rfl

theorem exists_of_mem_decodeDictionary {decode : Json → Option α} {d : Dictionary α}
    (h : decodeDictionary decode j = some d) {entry : String × α} (hentry : entry ∈ d.entries) :
    ∃ members, j = .object members ∧ ∃ member ∈ members, decode member.2 = some entry.2 := by
  cases j with
  | object members =>
    obtain ⟨decoded, hdecoded, rfl⟩ := Option.map_eq_some_iff.1 h
    obtain ⟨member, hmember, hvalue⟩ :=
      exists_of_mem_mapM hdecoded (Dictionary.mem_of_mem_ofList hentry)
    obtain ⟨value, hdecode, rfl⟩ := Option.map_eq_some_iff.1 hvalue
    exact ⟨members, rfl, member, hmember, hdecode⟩
  | _ => cases h

theorem decodeNat_ofNat {limit : Nat} (h : n < limit) : decodeNat limit (.ofNat n) = some n := by
  simp [decodeNat, ofNat, h]

theorem lt_of_required_decodeNat {limit : Nat} {slot : Slot}
    (h : slot.required (decodeNat limit) = some n) : n < limit := by
  cases slot with
  | given j =>
    rw [Slot.required] at h
    unfold decodeNat at h
    split at h
    · split at h
      · rename_i hcond
        cases h
        simp only [Bool.and_eq_true, decide_eq_true_eq] at hcond
        exact hcond.2
      · cases h
    · cases h
  | absent => cases h
  | cut => cases h

theorem slotOf_of_mem {members : List (String × Json)} (hnodup : (members.map (·.1)).Nodup)
    {member : String × Json} (h : member ∈ members) :
    slotOf members member.1 = some (.given member.2) := by
  have hfilter : members.filter (·.1 == member.1) = [member] := by
    induction members with
    | nil => cases h
    | cons first members ih =>
      rw [List.map_cons, List.nodup_cons] at hnodup
      obtain rfl | h := List.mem_cons.1 h
      · rw [List.filter_cons, if_pos (beq_self_eq_true _)]
        refine congrArg (List.cons member) (List.filter_eq_nil_iff.2 fun other hother heq => ?_)
        exact hnodup.1 (List.mem_map.2 ⟨other, hother, beq_iff_eq.1 heq⟩)
      · have hne : ¬ (first.1 == member.1) = true := fun heq =>
          hnodup.1 (List.mem_map.2 ⟨member, h, (beq_iff_eq.1 heq).symm⟩)
        rw [List.filter_cons, if_neg hne, ih hnodup.2 h]
  rw [slotOf, hfilter]

theorem mapM_slotOf (members : List (String × Json)) (hnodup : (members.map (·.1)).Nodup)
    {part : List (String × Json)} (hpart : part ⊆ members) :
    (part.map (·.1)).mapM (slotOf members) = some (part.map fun member => .given member.2) := by
  induction part with
  | nil => rfl
  | cons member part ih =>
    obtain ⟨hmember, hpart⟩ := List.cons_subset.1 hpart
    rw [List.map_cons, List.mapM_cons, slotOf_of_mem hnodup hmember, ih hpart]
    rfl

/-- **All fields of a record that is written as an object are given**, in their order. -/
theorem slots_object (names : List String) (values : List Json)
    (hlength : names.length = values.length) (hnodup : names.Nodup) :
    slots names (.object (names.zip values)) = some (values.map .given) := by
  have hnames : (names.zip values).map (·.1) = names := List.map_fst_zip (Nat.le_of_eq hlength)
  have hvalues : (names.zip values).map (·.2) = values := List.map_snd_zip (Nat.le_of_eq hlength.symm)
  have hslots := mapM_slotOf (names.zip values) (hnames.symm ▸ hnodup) (List.Subset.refl _)
  rw [hnames] at hslots
  refine hslots.trans (congrArg some ?_)
  conv_rhs => rw [← hvalues, List.map_map]
  rfl

/-- The values that a record is made of have numbers that fit if the record has. -/
theorem numbersFit_of_slots {names : List String} {value : Json} {slots : List Slot}
    (hfits : NumbersFit j) (h : j.slots names = some slots) (hvalue : .given value ∈ slots) :
    NumbersFit value := by
  cases j with
  | object members =>
    obtain ⟨name, -, hslot⟩ := exists_of_mem_mapM h hvalue
    unfold slotOf at hslot
    split at hslot
    · cases hslot
    · rename_i key found hfilter
      cases hslot
      have hmem : (key, value) ∈ members.filter (·.1 == name) := by
        rw [hfilter]
        exact List.mem_singleton_self _
      exact numbersFit_object.1 hfits _ (List.mem_filter.1 hmem).1
    · cases hslot
  | array items =>
    refine numbersFit_array.1 hfits value ?_
    have hitems : ∀ names items slots, slotsOfItems names items = some slots →
        .given value ∈ slots → value ∈ items := by
      intro names
      induction names with
      | nil =>
        intro items slots h hmem
        cases items <;> cases h
        cases hmem
      | cons name names ih =>
        intro items slots h hmem
        cases items with
        | nil =>
          obtain ⟨rest, hrest, rfl⟩ := Option.map_eq_some_iff.1 h
          obtain hcut | hmem := List.mem_cons.1 hmem
          · cases hcut
          · exact ih [] rest hrest hmem
        | cons item items =>
          obtain ⟨rest, hrest, rfl⟩ := Option.map_eq_some_iff.1 h
          obtain hgiven | hmem := List.mem_cons.1 hmem
          · cases hgiven
            exact List.mem_cons_self
          · exact List.mem_cons_of_mem _ (ih items rest hrest hmem)
    exact hitems names items slots h hvalue
  | _ => cases h

/-! ## Texts of plain values -/

@[simp]
theorem hasText_null : HasText .null := ⟨rfl, by simp [numbers]⟩

@[simp]
theorem hasText_bool (b : Bool) : HasText (.bool b) := ⟨rfl, by simp [numbers]⟩

@[simp]
theorem hasText_string (s : String) : HasText (.string s) := ⟨rfl, by simp [numbers]⟩

theorem hasText_ofNat (h : n < Nat.pow 2 64) : HasText (.ofNat n) := by
  refine ⟨rfl, fun number hnumber => ?_⟩
  obtain rfl := List.mem_singleton.1 hnumber
  rw [Nat.pow_eq] at h
  exact Number.readsBack_integer (Number.isWord_iff.2 ⟨by omega, by omega⟩)

theorem hasText_ofMap {encode : α → Json} {entries : List (String × α)}
    (h : ∀ entry ∈ entries, HasText (encode entry.2)) : HasText (.ofMap encode entries) :=
  hasText_object.2 (List.forall_mem_map.2 h)

theorem hasText_map {encode : α → Json} {items : List α} (h : ∀ item ∈ items, HasText (encode item)) :
    HasText (.array (items.map encode)) :=
  hasText_array.2 (List.forall_mem_map.2 h)

theorem hasText_ofStrings (names : List String) : HasText (.ofStrings names) :=
  hasText_map fun _ _ => hasText_string _

theorem hasText_texts (d : Dictionary String) : HasText (.ofMap .string d.entries) :=
  hasText_ofMap fun _ _ => hasText_string _

/-! ## Round trips -/

/-- The value that a text denotes. -/
def decodeText (decode : Json → Option α) (text : String) : Option α := (parse text).bind decode

/-- A JSON form of a type: `Valid` says which values there are, `Faithful` which have a text. -/
structure Carries (encode : α → Json) (decode : Json → Option α) (Valid Faithful : α → Prop) :
    Prop where
  decode_encode : ∀ a, Valid a → decode (encode a) = some a
  hasText : ∀ a, Valid a → Faithful a → HasText (encode a)
  valid : ∀ j a, NumbersFit j → decode j = some a → Valid a

/-- What is written is read again, and what was read stays the same. -/
structure RoundTrips (encode : α → Json) (decode : Json → Option α) (Valid Faithful : α → Prop) :
    Prop where
  decode_encode : ∀ a, Valid a → Faithful a → decodeText decode (encode a).compact = some a
  stable : ∀ text a, decodeText decode text = some a → Faithful a →
    decodeText decode (encode a).compact = some a

theorem Carries.roundTrips {encode : α → Json} {decode : Json → Option α} {Valid Faithful : α → Prop}
    (h : Carries encode decode Valid Faithful) : RoundTrips encode decode Valid Faithful := by
  have hwritten : ∀ a, Valid a → Faithful a → decodeText decode (encode a).compact = some a := by
    intro a hvalid hfaithful
    rw [decodeText, parse_compact (h.hasText a hvalid hfaithful), Option.bind_some]
    exact h.decode_encode a hvalid
  refine ⟨hwritten, fun text a hread hfaithful => hwritten a ?_ hfaithful⟩
  obtain ⟨j, hparse, hdecode⟩ := Option.bind_eq_some_iff.1 hread
  exact h.valid j a (numbersFit_of_parse hparse) hdecode

end Json

open Json (Carries HasText hasText_object)

/-! ## Tasks -/

theorem Task.Id.carries :
    Carries Task.Id.encode Task.Id.decode (·.sequence < Task.sequenceLimit) fun _ => True where
  decode_encode id hid := by
    have hslots : id.encode.slots ["module_id", "sequence"] =
        some [.given (.string id.module), .given (.ofNat id.sequence)] :=
      Json.slots_object ["module_id", "sequence"] [_, _] rfl (by decide)
    simp [Task.Id.decode, hslots, Json.Slot.required, Json.decodeString, Json.decodeNat_ofNat hid]
  hasText id hid _ := by
    have hsequence : HasText (.ofNat id.sequence) := Json.hasText_ofNat hid
    simp [Task.Id.encode, hasText_object, hsequence]
  valid j id _ h := by
    simp only [Task.Id.decode, Option.bind_eq_bind, Option.bind_eq_some_iff] at h
    obtain ⟨slots, -, h⟩ := h
    split at h
    · obtain ⟨module, -, sequence, hsequence, h⟩ := by
        simpa only [Option.bind_eq_some_iff] using h
      cases h
      exact Json.lt_of_required_decodeNat hsequence
    · cases h

theorem Task.Target.carries :
    Carries Task.Target.encode Task.Target.decode (fun _ => True) fun _ => True where
  decode_encode target _ := by cases target <;> rfl
  hasText target _ _ := Json.hasText_string _
  valid _ _ _ _ := trivial

theorem Task.Settings.carries :
    Carries Task.Settings.encode Task.Settings.decode (fun _ => True) fun _ => True where
  decode_encode s _ := by
    have hslots : s.encode.slots ["strict_mode", "extra"] =
        some [.given (.bool s.strictMode), .given (.ofMap .string s.extra.entries)] :=
      Json.slots_object ["strict_mode", "extra"] [_, _] rfl (by decide)
    simp [Task.Settings.decode, hslots, Json.Slot.orElse, Json.decodeBool,
      Json.decodeDictionary_texts]
  hasText s _ _ := by simp [Task.Settings.encode, hasText_object, Json.hasText_texts]
  valid _ _ _ _ := trivial

theorem Task.Features.carries :
    Carries Task.Features.encode Task.Features.decode (fun _ => True) fun _ => True where
  decode_encode f _ := by
    have hslots : f.encode.slots ["macros"] = some [.given (.bool f.macros)] :=
      Json.slots_object ["macros"] [_] rfl (by decide)
    simp [Task.Features.decode, hslots, Json.Slot.orElse, Json.decodeBool]
  hasText f _ _ := by simp [Task.Features.encode, hasText_object]
  valid _ _ _ _ := trivial

theorem Task.Payload.carries :
    Carries Task.Payload.encode Task.Payload.decode (fun _ => True) fun _ => True where
  decode_encode p _ := by
    have hslots : p.encode.slots ["code", "config", "path", "target_version", "features"] =
        some [.given (.string p.code), .given p.settings.encode, .given (.string p.path),
          .given p.target.encode, .given p.features.encode] :=
      Json.slots_object ["code", "config", "path", "target_version", "features"] [_, _, _, _, _] rfl
        (by decide)
    simp [Task.Payload.decode, hslots, Json.Slot.required, Json.decodeString,
      Task.Settings.carries.decode_encode p.settings trivial,
      Task.Target.carries.decode_encode p.target trivial,
      Task.Features.carries.decode_encode p.features trivial]
  hasText p _ _ := by
    simp [Task.Payload.encode, hasText_object,
      Task.Settings.carries.hasText p.settings trivial trivial,
      Task.Target.carries.hasText p.target trivial trivial,
      Task.Features.carries.hasText p.features trivial trivial]
  valid _ _ _ _ := trivial

/-! ## Answers -/

theorem Dependency.carries :
    Carries Dependency.encode Dependency.decode (fun _ => True) fun _ => True where
  decode_encode d _ := by
    have hslots : d.encode.slots ["path", "is_glob"] =
        some [.given (.string d.path), .given (.bool d.isGlob)] :=
      Json.slots_object ["path", "is_glob"] [_, _] rfl (by decide)
    simp [Dependency.decode, hslots, Json.Slot.required, Json.Slot.orElse, Json.decodeString,
      Json.decodeBool]
  hasText d _ _ := by simp [Dependency.encode, hasText_object]
  valid _ _ _ _ := trivial

theorem Task.Output.carries :
    Carries Task.Output.encode Task.Output.decode (fun _ => True) fun _ => True where
  decode_encode o _ := by
    have hslots : o.encode.slots ["transpiled_code", "dependencies"] =
        some [.given (.string o.code), .given (.array (o.dependencies.map Dependency.encode))] :=
      Json.slots_object ["transpiled_code", "dependencies"] [_, _] rfl (by decide)
    have hdependencies : Json.decodeList Dependency.decode
        (.array (o.dependencies.map Dependency.encode)) = some o.dependencies :=
      Json.decodeList_map fun d _ => Dependency.carries.decode_encode d trivial
    simp [Task.Output.decode, hslots, Json.Slot.required, Json.decodeString, hdependencies]
  hasText o _ _ := by
    have hdependencies : HasText (.array (o.dependencies.map Dependency.encode)) :=
      Json.hasText_map fun d _ => Dependency.carries.hasText d trivial trivial
    simp [Task.Output.encode, hasText_object, hdependencies]
  valid _ _ _ _ := trivial

theorem Task.Outcome.hasText_encode (outcome : Task.Outcome) : HasText outcome.encode := by
  cases outcome with
  | success output => exact Task.Output.carries.hasText output trivial trivial
  | failure error => simp [Task.Outcome.encode, hasText_object]

theorem Task.Outcome.depth_encode_le (outcome : Task.Outcome) : outcome.encode.depth ≤ 3 := by
  cases outcome with
  | success output =>
    have hdependencies : Json.depthOfItems (output.dependencies.map Dependency.encode) ≤ 1 :=
      Json.depthOfItems_le_iff.2 (List.forall_mem_map.2 fun d _ => Nat.le_refl 1)
    simp only [Task.Outcome.encode, Task.Output.encode, Json.depth, Json.depthOfMembers]
    omega
  | failure error => simp [Task.Outcome.encode, Json.depth, Json.depthOfMembers]

/-- An outcome is read back at any place where its nesting is not too deep: no output reads as a
failure, since outputs come first, and no failure reads as an output, since it has no code. -/
theorem Task.Outcome.decodeAt_encode {around : Nat} (haround : around ≤ 1) (outcome : Task.Outcome) :
    Task.Outcome.decodeAt around outcome.encode = some outcome := by
  have hkept : outcome.encode.isKept around = true := by
    have hdepth := outcome.depth_encode_le
    rw [Json.isKept, Bool.and_eq_true, decide_eq_true_eq, Json.maxDepth]
    exact ⟨outcome.hasText_encode.1, by omega⟩
  rw [Task.Outcome.decodeAt, if_pos hkept]
  cases outcome with
  | success output =>
    rw [Task.Outcome.encode, Task.Output.carries.decode_encode output trivial]
    rfl
  | failure error => rfl

theorem Task.Outcome.carries :
    Carries Task.Outcome.encode Task.Outcome.decode (fun _ => True) fun _ => True where
  decode_encode outcome _ := Task.Outcome.decodeAt_encode (Nat.zero_le 1) outcome
  hasText outcome _ _ := outcome.hasText_encode
  valid _ _ _ _ := trivial

theorem Task.Response.carries :
    Carries Task.Response.encode Task.Response.decode (·.id.sequence < Task.sequenceLimit)
      fun _ => True where
  decode_encode r hr := by
    have hslots : r.encode.slots ["task_id", "result"] =
        some [.given r.id.encode, .given r.outcome.encode] :=
      Json.slots_object ["task_id", "result"] [_, _] rfl (by decide)
    simp [Task.Response.decode, hslots, Json.Slot.required, Task.Id.carries.decode_encode r.id hr,
      Task.Outcome.decodeAt_encode (Nat.le_refl 1)]
  hasText r hr _ := by
    simp [Task.Response.encode, hasText_object, Task.Id.carries.hasText r.id hr trivial,
      r.outcome.hasText_encode]
  valid j r hfits h := by
    simp only [Task.Response.decode, Option.bind_eq_bind, Option.bind_eq_some_iff] at h
    obtain ⟨slots, hslots, h⟩ := h
    split at h
    · rename_i idSlot outcomeSlot
      simp only [Option.bind_eq_some_iff] at h
      obtain ⟨id, hid, outcome, -, h⟩ := h
      cases h
      cases idSlot with
      | given value =>
        exact Task.Id.carries.valid value id
          (Json.numbersFit_of_slots hfits hslots List.mem_cons_self) hid
      | absent => cases hid
      | cut => cases hid
    · cases h

/-! ## Packages -/

theorem DependencyLists.carries :
    Carries DependencyLists.encode DependencyLists.decode (fun _ => True) fun _ => True where
  decode_encode lists _ := by
    have hslots : lists.encode.slots ["dependencies", "devDependencies"] =
        some [.given (.ofMap .string lists.dependencies.entries),
          .given (.ofMap .string lists.devDependencies.entries)] :=
      Json.slots_object ["dependencies", "devDependencies"] [_, _] rfl (by decide)
    simp [DependencyLists.decode, hslots, Json.Slot.orElse, Json.decodeDictionary_texts]
  hasText lists _ _ := by simp [DependencyLists.encode, hasText_object, Json.hasText_texts]
  valid _ _ _ _ := trivial

namespace Manifest

variable {m : Manifest}

theorem File.carries : Carries File.encode File.decode (fun _ => True) fun _ => True where
  decode_encode f _ := by
    have hslots : f.encode.slots ["content", "requires"] =
        some [.given (.string f.content), .given (.ofOption .ofStrings f.requires)] :=
      Json.slots_object ["content", "requires"] [_, _] rfl (by decide)
    have hrequires : Json.decodeOption (Json.decodeList Json.decodeString)
        (.ofOption .ofStrings f.requires) = some f.requires := by
      cases f.requires with
      | none => rfl
      | some names => exact congrArg (Option.map some) (Json.decodeList_ofStrings names)
    simp [File.decode, hslots, Json.Slot.orElse, Json.decodeString, hrequires]
  hasText f _ _ := by
    have hrequires : HasText (.ofOption .ofStrings f.requires) := by
      cases f.requires with
      | none => exact Json.hasText_null
      | some names => exact Json.hasText_ofStrings names
    simp [File.encode, hasText_object, hrequires]
  valid _ _ _ _ := trivial

theorem Package.carries : Carries Package.encode Package.decode (fun _ => True) fun _ => True where
  decode_encode p _ := by
    have hslots : p.encode.slots ["name", "version"] =
        some [.given (.string p.name), .given (.string p.version)] :=
      Json.slots_object ["name", "version"] [_, _] rfl (by decide)
    simp [Package.decode, hslots, Json.Slot.required, Json.decodeString]
  hasText p _ _ := by simp [Package.encode, hasText_object]
  valid _ _ _ _ := trivial

theorem Transitive.carries :
    Carries Transitive.encode Transitive.decode (fun _ => True) fun _ => True where
  decode_encode t _ := by
    have hslots : t.encode.slots ["semver", "resolved", "parents", "entries"] =
        some [.given (.string t.semver), .given (.string t.resolved), .given (.ofStrings t.parents),
          .given (.ofStrings t.entries)] :=
      Json.slots_object ["semver", "resolved", "parents", "entries"] [_, _, _, _] rfl (by decide)
    simp [Transitive.decode, hslots, Json.Slot.orElse, Json.decodeString, Json.decodeList_ofStrings]
  hasText t _ _ := by simp [Transitive.encode, hasText_object, Json.hasText_ofStrings]
  valid _ _ _ _ := trivial

/-- Every alias is a value that can be kept two levels below the manifest. -/
def KeepsAliases (m : Manifest) : Prop :=
  ∀ entry ∈ m.aliases.entries, Json.IsKeptValue 2 entry.2

/-- Every double in an alias is read as it is written. -/
def HasFaithfulDoubles (m : Manifest) : Prop :=
  ∀ entry ∈ m.aliases.entries, ∀ d, .double d ∈ entry.2.numbers → (Json.Number.double d).ReadsBack

theorem decodeDictionary_aliases (h : m.KeepsAliases) :
    Json.decodeDictionary (Json.decodeKept 2) (.object m.aliases.entries) = some m.aliases := by
  have hmap : Json.ofMap id m.aliases.entries = .object m.aliases.entries :=
    congrArg Json.object (List.map_id _)
  rw [← hmap]
  exact Json.decodeDictionary_ofMap fun entry hentry => (h entry hentry).decodeKept

theorem hasText_aliases (h : m.KeepsAliases) (hdoubles : m.HasFaithfulDoubles) :
    HasText (.object m.aliases.entries) := by
  refine hasText_object.2 fun entry hentry => ⟨?_, fun n hn => ?_⟩
  · have hkept := (h entry hentry).kept
    rw [Json.isKept, Bool.and_eq_true] at hkept
    exact hkept.1
  · cases n with
    | integer n => exact Json.Number.readsBack_integer ((h entry hentry).fits _ hn)
    | double d => exact hdoubles entry hentry d hn

theorem keepsAliases_of_decode {j : Json} (hfits : Json.NumbersFit j) (h : decode j = some m) :
    m.KeepsAliases := by
  simp only [decode, Option.bind_eq_bind, Option.bind_eq_some_iff] at h
  obtain ⟨slots, hslots, h⟩ := h
  split at h
  · rename_i contentsSlot packagesSlot aliasesSlot transitiveSlot
    simp only [Option.bind_eq_some_iff] at h
    obtain ⟨contents, -, packages, -, aliases, haliases, transitive, -, h⟩ := h
    cases h
    intro entry hentry
    cases aliasesSlot with
    | given value =>
      have hvalue : Json.NumbersFit value := Json.numbersFit_of_slots hfits hslots (by simp)
      obtain ⟨members, rfl, member, hmember, hkept⟩ :=
        Json.exists_of_mem_decodeDictionary haliases hentry
      exact Json.isKeptValue_of_decodeKept (Json.numbersFit_object.1 hvalue member hmember) hkept
    | absent =>
      cases haliases
      cases hentry
    | cut =>
      cases haliases
      cases hentry
  · cases h

theorem carries : Carries encode decode KeepsAliases HasFaithfulDoubles where
  decode_encode m hm := by
    have hslots : m.encode.slots
        ["contents", "dependencies", "dependencyAliases", "dependencyDependencies"] =
        some [.given (.ofMap File.encode m.contents.entries),
          .given (.array (m.packages.map Package.encode)), .given (.object m.aliases.entries),
          .given (.ofMap Transitive.encode m.transitive.entries)] :=
      Json.slots_object ["contents", "dependencies", "dependencyAliases", "dependencyDependencies"]
        [_, _, _, _] rfl (by decide)
    have hcontents : Json.decodeDictionary File.decode (.ofMap File.encode m.contents.entries) =
        some m.contents :=
      Json.decodeDictionary_ofMap fun entry _ => File.carries.decode_encode entry.2 trivial
    have hpackages : Json.decodeList Package.decode (.array (m.packages.map Package.encode)) =
        some m.packages :=
      Json.decodeList_map fun p _ => Package.carries.decode_encode p trivial
    have htransitive : Json.decodeDictionary Transitive.decode
        (.ofMap Transitive.encode m.transitive.entries) = some m.transitive :=
      Json.decodeDictionary_ofMap fun entry _ => Transitive.carries.decode_encode entry.2 trivial
    simp [decode, hslots, Json.Slot.orElse, hcontents, hpackages, decodeDictionary_aliases hm,
      htransitive]
  hasText m hm hdoubles := by
    have hcontents : HasText (.ofMap File.encode m.contents.entries) :=
      Json.hasText_ofMap fun entry _ => File.carries.hasText entry.2 trivial trivial
    have hpackages : HasText (.array (m.packages.map Package.encode)) :=
      Json.hasText_map fun p _ => Package.carries.hasText p trivial trivial
    have htransitive : HasText (.ofMap Transitive.encode m.transitive.entries) :=
      Json.hasText_ofMap fun entry _ => Transitive.carries.hasText entry.2 trivial trivial
    have haliases := hasText_aliases hm hdoubles
    rw [encode, hasText_object]
    simp only [List.forall_mem_cons]
    exact ⟨hcontents, hpackages, haliases, htransitive, by simp⟩
  valid j m hfits h := keepsAliases_of_decode hfits h

end Manifest

/-- **Every message is read as it was written**, and what was read from any text stays the same when it
is written and read again. -/
theorem messages_roundTrip :
    Json.RoundTrips Task.Id.encode Task.Id.decode (·.sequence < Task.sequenceLimit) (fun _ => True) ∧
    Json.RoundTrips Task.Target.encode Task.Target.decode (fun _ => True) (fun _ => True) ∧
    Json.RoundTrips Task.Settings.encode Task.Settings.decode (fun _ => True) (fun _ => True) ∧
    Json.RoundTrips Task.Features.encode Task.Features.decode (fun _ => True) (fun _ => True) ∧
    Json.RoundTrips Task.Payload.encode Task.Payload.decode (fun _ => True) (fun _ => True) ∧
    Json.RoundTrips Dependency.encode Dependency.decode (fun _ => True) (fun _ => True) ∧
    Json.RoundTrips Task.Output.encode Task.Output.decode (fun _ => True) (fun _ => True) ∧
    Json.RoundTrips Task.Outcome.encode Task.Outcome.decode (fun _ => True) (fun _ => True) ∧
    Json.RoundTrips Task.Response.encode Task.Response.decode
      (·.id.sequence < Task.sequenceLimit) (fun _ => True) ∧
    Json.RoundTrips DependencyLists.encode DependencyLists.decode (fun _ => True) (fun _ => True) ∧
    Json.RoundTrips Manifest.encode Manifest.decode Manifest.KeepsAliases
      Manifest.HasFaithfulDoubles :=
  ⟨Task.Id.carries.roundTrips, Task.Target.carries.roundTrips, Task.Settings.carries.roundTrips,
    Task.Features.carries.roundTrips, Task.Payload.carries.roundTrips,
    Dependency.carries.roundTrips, Task.Output.carries.roundTrips, Task.Outcome.carries.roundTrips,
    Task.Response.carries.roundTrips, DependencyLists.carries.roundTrips,
    Manifest.carries.roundTrips⟩

/-- One half as a double. -/
def half : Decimal.Double := ⟨false, Nat.pow 2 52, -53⟩

/-- A manifest with an alias that has numbers of every kind. -/
def aliasedManifest : Manifest where
  packages := [⟨"a", "1.0.0"⟩]
  aliases := Dictionary.ofList [("a", .object [("b", .array [.number (.integer (-(Nat.pow 2 63 : Nat))),
    .number (.integer (Nat.pow 2 64 - 1 : Nat)), .number (.double half), .null]), ("c", .bool true)])]

theorem readsBack_half : (Json.Number.double half).ReadsBack := by
  have htext : half.text = "0.5" := by decide +kernel
  have hnumber : Json.numberOf false ['0'] (some ['5']) none = some (.double half) := by
    decide +kernel
  have hread : Json.readUnsigned false "0.5".toList = some (.number (.double half), []) := by
    simp [Json.readUnsigned, Json.readWhole, Json.readDigits, Json.readFraction, Json.readExponent,
      List.span_eq_takeWhile_dropWhile, hnumber]
  rw [Json.Number.ReadsBack, Json.Number.text, htext, Json.readNumber_of_ne (by simp), hread]

theorem messages_roundTrip_aliased :
    aliasedManifest.KeepsAliases ∧ aliasedManifest.HasFaithfulDoubles ∧
      Json.decodeText Manifest.decode aliasedManifest.encode.compact = some aliasedManifest := by
  have hkeeps : aliasedManifest.KeepsAliases := by
    intro entry hentry
    obtain rfl := List.mem_singleton.1 hentry
    refine ⟨by decide +kernel, by rfl, ?_⟩
    simp [Json.NumbersFit, Json.numbers, Json.numbersOfMembers, Json.numbersOfItems,
      Json.Number.Fits, Json.Number.IsWord]
  have hdoubles : aliasedManifest.HasFaithfulDoubles := by
    intro entry hentry d hd
    obtain rfl := List.mem_singleton.1 hentry
    have hhalf : d = half := by
      simpa [Json.numbers, Json.numbersOfMembers, Json.numbersOfItems] using hd
    exact hhalf ▸ readsBack_half
  obtain ⟨-, -, -, -, -, -, -, -, -, -, h⟩ := messages_roundTrip
  exact ⟨hkeeps, hdoubles, h.decode_encode aliasedManifest hkeeps hdoubles⟩

end ModuleForge
