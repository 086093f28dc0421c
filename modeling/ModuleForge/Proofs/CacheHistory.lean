import ModuleForge.Proofs.Attempts
import Mathlib.Data.List.Induction

/-!
# What the cache holds

A client works through fetches, invalidations and clearings, whatever the network, the registry and
the builder answer. Its cache is then told by the history alone: an address has the manifest of the
last fetch that downloaded it, unless the address was dropped or the cache was emptied since. A
manifest is downloaded by decoding the body of the last answer.

- `Client.Delivered`: where a downloaded manifest comes from.
- `Client.fetched`: all that a fetch can come to.
- `Client.perform_told`: one operation keeps the cache and the history in step.
- `Client.run_told`: so does a whole run.
-/

namespace ModuleForge

/-! ## Resolving -/

namespace Fetch

/-- One who resolves ranges without touching the cache of manifests. -/
def Resolver.SparesCache (resolver : Resolver) : Prop :=
  ∀ name range, Moves SameCache (resolver name range)

/-- The registry does not touch the cache. -/
theorem sparesCache_resolve (net : Network) (registry : String) :
    (resolve net registry).SparesCache := by
  intro name range s
  suffices h : Moves Asked (resolve net registry name range) from (h s).cache
  unfold resolve
  split
  · exact moves_pure _
  refine Moves.bind (moves_respond net _) fun response => ?_
  split
  · exact moves_throw _
  refine Moves.bind (moves_decodeBody _ _ _) fun listing => ?_
  split
  · exact moves_pure _
  · exact moves_throw _

theorem moves_resolveAll {resolver : Resolver} (h : resolver.SparesCache)
    (ranges : List (String × String)) : Moves SameCache (resolveAll resolver ranges) := by
  have hpure {γ : Type} (a : γ) : Moves SameCache (pure a : Fetch γ) := fun _ => ⟨rfl, rfl⟩
  induction ranges with
  | nil => exact hpure []
  | cons range ranges ih =>
    refine Moves.bind (h range.1 range.2) fun version => ?_
    exact Moves.bind ih fun others => hpure _

end Fetch

/-! ## Fetches -/

namespace Client

open Fetch

variable {c : Client} {d : Download} {s s' : Session} {address : String}

/-- The versions that a client resolves ranges to. -/
def versions (c : Client) (ranges : Dictionary String) : Fetch (List (String × String)) :=
  resolveAll c.resolver (ranges.map Range.normalize).entries

/-- The address in the store of packages with these versions. -/
abbrev addressOf (c : Client) (versions : List (String × String)) : String :=
  c.storeAddress (Dictionary.ofList versions)

/-- The manifest of a set of packages, from the store or from the builder. -/
def obtain (c : Client) (set : PackageSet) : Fetch Manifest := do
  report .downloading
  match ← c.readStore (c.storeAddress set) with
  | some manifest => pure manifest
  | none => c.build set

theorem download_eq (c : Client) (set : PackageSet) :
    c.download set = c.obtain set >>= remember (c.storeAddress set) := by
  simp only [download, obtain, bind_assoc]
  refine congrArg (report .downloading >>= ·) (funext fun _ => ?_)
  refine congrArg (c.readStore (c.storeAddress set) >>= ·) (funext fun manifest => ?_)
  cases manifest <;> rfl

theorem moves_build (c : Client) (set : PackageSet) : Moves Asked (c.build set) :=
  Moves.bind (moves_report _) fun _ => Moves.bind (moves_request _ _ _ _) fun _ =>
    Moves.bind (moves_report _) fun _ => moves_request _ _ _ _

/-- Whatever the store answers, it is asked. -/
theorem moves_readStore (c : Client) (address : String) : Moves Sent (c.readStore address) := by
  refine Moves.sent_bind (moves_send _ _) fun reply => ?_
  cases reply with
  | response response =>
    dsimp only
    split <;> exact moves_pure _
  | unreachable message => exact moves_pure _

theorem moves_obtain (c : Client) (set : PackageSet) : Moves Sent (c.obtain set) := by
  have hread : Moves Sent (c.readStore (c.storeAddress set) >>= fun manifest =>
      match manifest with
      | some manifest => pure manifest
      | none => c.build set) := by
    refine Moves.sent_bind (moves_readStore c _) fun manifest => ?_
    cases manifest with
    | some manifest => exact moves_pure _
    | none => exact c.moves_build set
  intro s
  have hsent := hread { s with progress := s.progress ++ [.downloading] }
  exact ⟨hsent.cache, hsent.requests⟩

/-- **Where a manifest comes from**: it is what the body of the last answer encodes, which came from the
store, or from the place in the store that the builder has named. -/
inductive Delivered (c : Client) (set : PackageSet) (manifest : Manifest)
    (before after : List Network.Request) : Prop
  | stored (h : Answered c.network Manifest.decode
      ⟨.get, c.services.bucket ++ "/" ++ c.storeAddress set⟩ manifest before after)
  | built {path : String} {between : List Network.Request}
      (hpath : Answered c.network decodePointer
        ⟨.post, c.services.packager ++ "/" ++ set.queryAddress⟩ path before between)
      (h : Answered c.network Manifest.decode ⟨.get, c.services.bucket ++ "/" ++ path⟩ manifest
        between after)

/-- The answer of the store is the manifest, or the store has none. -/
theorem readStore_ok {found : Option Manifest} (h : c.readStore address s = .ok found s') :
    s'.requests = s.requests ++ [⟨.get, c.services.bucket ++ "/" ++ address⟩] ∧
      ∀ manifest, found = some manifest → Answered c.network Manifest.decode
        ⟨.get, c.services.bucket ++ "/" ++ address⟩ manifest s.requests s'.requests := by
  unfold readStore at h
  obtain ⟨reply, s₁, hsend, h⟩ := exists_of_bind_ok h
  cases hsend
  cases hreply : c.network s.requests ⟨.get, c.services.bucket ++ "/" ++ address⟩ with
  | unreachable message =>
    rw [hreply] at h
    cases h
    exact ⟨rfl, by simp⟩
  | response response =>
    rw [hreply] at h
    dsimp only at h
    split at h
    · rename_i hsuccess
      cases h
      exact ⟨rfl, fun manifest hbody => answered_sent hreply hsuccess hbody⟩
    · cases h
      exact ⟨rfl, by simp⟩

theorem obtain_delivered {set : PackageSet} {manifest : Manifest}
    (h : c.obtain set s = .ok manifest s') : c.Delivered set manifest s.requests s'.requests := by
  unfold obtain at h
  obtain ⟨_, s₁, hreport, h⟩ := exists_of_bind_ok h
  cases hreport
  obtain ⟨found, s₂, hread, h⟩ := exists_of_bind_ok h
  obtain ⟨hrequests, hfound⟩ := readStore_ok hread
  cases found with
  | some m =>
    cases h
    exact .stored (hfound _ rfl)
  | none =>
    obtain ⟨_, s₃, hreport, h⟩ := exists_of_bind_ok h
    cases hreport
    obtain ⟨path, s₄, hpath, h⟩ := exists_of_bind_ok h
    obtain ⟨_, s₅, hreport, h⟩ := exists_of_bind_ok h
    cases hreport
    have hpointer := request_answered hpath
    change Answered _ _ _ _ s₂.requests _ at hpointer
    rw [hrequests] at hpointer
    have hmanifest := request_answered h
    exact .built hpointer.of_append hmanifest

/-- **All that a fetch can come to.** -/
inductive Fetched (c : Client) (ranges : Dictionary String) (s : Session) :
    EStateM.Result Error Session (Option Download) → Prop
  /-- There is nothing to fetch. -/
  | nothing : ranges.isEmpty = true → Fetched c ranges s (.ok none s)
  /-- A range has no version. -/
  | unresolved {e : Error} {s' : Session} : c.versions ranges s = .error e s' → SameCache s s' →
      Fetched c ranges s (.error e s')
  /-- The manifest is in the cache. -/
  | cached {vs : List (String × String)} {s₁ s' : Session} {d : Download} :
      ranges.isEmpty = false → c.versions ranges s = .ok vs s₁ →
      s.cache.find? (c.addressOf vs) = some d → SameCache s s' → s'.requests = s₁.requests →
      Fetched c ranges s (.ok (some d) s')
  /-- Neither the store nor the builder has a manifest. -/
  | refused {vs : List (String × String)} {s₁ s' : Session} {e : Error} :
      c.versions ranges s = .ok vs s₁ → s.cache.find? (c.addressOf vs) = none → SameCache s s' →
      Fetched c ranges s (.error e s')
  /-- The manifest is downloaded. -/
  | downloaded {vs : List (String × String)} {s₁ s' : Session} {d : Download} :
      c.versions ranges s = .ok vs s₁ → s.cache.find? (c.addressOf vs) = none →
      s₁.requests.length < s'.requests.length → d.number = s.downloads →
      s'.cache = s.cache.insert (c.addressOf vs) d → s'.downloads = s.downloads + 1 →
      c.Delivered (Dictionary.ofList vs) d.manifest s₁.requests s'.requests →
      Fetched c ranges s (.ok (some d) s')

/-- Ends a fetch: the last report, if progress fills the screen. -/
def finish (c : Client) (d : Download) : Fetch (Option Download) := do
  if c.fullScreen then report .transpiling
  pure (some d)

theorem fetch_of_ne (c : Client) {ranges : Dictionary String} (h : ranges.isEmpty = false) :
    c.fetch ranges = c.versions ranges >>= fun vs =>
      c.manifestOf (Dictionary.ofList vs) >>= c.finish := by
  simp only [fetch, h, Bool.false_eq_true, if_false]
  rfl

theorem finish_ok (c : Client) (d : Download) (s : Session) :
    ∃ s', c.finish d s = .ok (some d) s' ∧ SameCache s s' ∧ s'.requests = s.requests := by
  unfold finish
  split
  · exact ⟨_, rfl, ⟨rfl, rfl⟩, rfl⟩
  · exact ⟨_, rfl, ⟨rfl, rfl⟩, rfl⟩

theorem manifestOf_apply (c : Client) (set : PackageSet) (s : Session) :
    c.manifestOf set s = match s.cache.find? (c.storeAddress set) with
      | some d => .ok d s
      | none => c.download set s := by
  unfold manifestOf
  rw [bind_apply]
  show (match s.cache.find? (c.storeAddress set) with
    | some d => (pure d : Fetch Download)
    | none => c.download set) s = _
  cases s.cache.find? (c.storeAddress set) <;> rfl

theorem remember_apply (address : String) (manifest : Manifest) (s : Session) :
    remember address manifest s = .ok ⟨s.downloads, manifest⟩
      { s with
        downloads := s.downloads + 1
        cache := s.cache.insert address ⟨s.downloads, manifest⟩ } :=
  rfl

theorem fetched (c : Client) (h : c.resolver.SparesCache) (ranges : Dictionary String)
    (s : Session) : Fetched c ranges s (c.fetch ranges s) := by
  by_cases hempty : ranges.isEmpty = true
  · have hnone : c.fetch ranges s = .ok none s := by
      simp only [fetch, hempty, if_true]
      rfl
    rw [hnone]
    exact .nothing hempty
  rw [Bool.not_eq_true] at hempty
  rw [fetch_of_ne c hempty, bind_apply]
  have hsame : SameCache s (after (c.versions ranges) s) := moves_resolveAll h _ s
  cases hvs : c.versions ranges s with
  | error e s₁ =>
    rw [after_eq_of_error hvs] at hsame
    exact .unresolved hvs hsame
  | ok vs s₁ =>
    rw [after_eq_of_ok hvs] at hsame
    dsimp only
    rw [bind_apply, manifestOf_apply, hsame.1]
    cases hcache : s.cache.find? (c.addressOf vs) with
    | some d =>
      obtain ⟨s', hfinish, hsame', hrequests⟩ := c.finish_ok d s₁
      dsimp only
      rw [hfinish]
      exact .cached hempty hvs hcache (hsame.trans hsame') hrequests
    | none =>
      have hsent := c.moves_obtain (Dictionary.ofList vs) s₁
      dsimp only
      rw [download_eq, bind_apply]
      cases hobtain : c.obtain (Dictionary.ofList vs) s₁ with
      | error e s₂ =>
        rw [after_eq_of_error hobtain] at hsent
        exact .refused hvs hcache (hsame.trans hsent.cache)
      | ok manifest s₂ =>
        rw [after_eq_of_ok hobtain] at hsent
        obtain ⟨hcache', hdownloads⟩ := hsame.trans hsent.cache
        obtain ⟨s', hfinish, hsame', hrequests⟩ := c.finish_ok ⟨s₂.downloads, manifest⟩
          { s₂ with
            downloads := s₂.downloads + 1
            cache := s₂.cache.insert (c.addressOf vs) ⟨s₂.downloads, manifest⟩ }
        dsimp only
        rw [remember_apply]
        dsimp only
        rw [hfinish]
        refine .downloaded hvs hcache ?_ hdownloads ?_ ?_ ?_
        · rw [hrequests]
          exact hsent.requests
        · rw [hsame'.1, hcache']
        · rw [hsame'.2, hdownloads]
        · have hdelivered := obtain_delivered hobtain
          rw [hrequests]
          exact hdelivered

/-! ## Histories -/

/-- What is asked of a client. -/
inductive Operation where
  | fetch (ranges : Dictionary String)
  | invalidate (set : PackageSet)
  | clear

/-- What an operation means to the addresses of the store. -/
inductive Event where
  | downloaded (address : String) (download : Download)
  | dropped (address : String)
  | cleared

/-- The address that a fetch downloads, and what it downloads: requests went out behind the
resolution, and a manifest came back. -/
def downloaded? (c : Client) (ranges : Dictionary String) (s : Session) :
    Option (String × Download) :=
  match c.versions ranges s, c.fetch ranges s with
  | .ok vs s₁, .ok (some d) s' =>
    if s₁.requests.length < s'.requests.length then some (c.addressOf vs, d) else none
  | _, _ => none

/-- The event of an operation, if it has one. -/
def event? (c : Client) (s : Session) : Operation → Option Event
  | .fetch ranges => (c.downloaded? ranges s).map fun (address, d) => .downloaded address d
  | .invalidate set => some (.dropped (c.storeAddress set))
  | .clear => some .cleared

/-- The session that an operation leaves. -/
def sessionAfter (c : Client) (s : Session) : Operation → Session
  | .fetch ranges => after (c.fetch ranges) s
  | .invalidate set => after (c.invalidate set) s
  | .clear => after Fetch.clear s

/-- A session and the events so far, the last one first. -/
structure History where
  session : Session := {}
  events : List Event := []

/-- Performs one operation. -/
def perform (c : Client) (h : History) (op : Operation) : History :=
  ⟨c.sessionAfter h.session op, (c.event? h.session op).toList ++ h.events⟩

/-- Performs operations from left to right, with an empty cache at first. -/
def run (c : Client) (ops : List Operation) : History :=
  ops.foldl c.perform {}

/-- **The manifest that an address should have**: that of the last download, unless the address was
dropped or the cache was emptied since. -/
def lastDownload (address : String) : List Event → Option Download
  | [] => none
  | .downloaded a d :: earlier => if a = address then some d else lastDownload address earlier
  | .dropped a :: earlier => if a = address then none else lastDownload address earlier
  | .cleared :: _ => none

theorem downloaded?_of_ok {ranges : Dictionary String} {s₁ : Session} {vs : List (String × String)}
    (hvs : c.versions ranges s = .ok vs s₁) (hfetch : c.fetch ranges s = .ok (some d) s') :
    c.downloaded? ranges s =
      if s₁.requests.length < s'.requests.length then some (c.addressOf vs, d) else none := by
  simp only [downloaded?, hvs, hfetch]

/-- A fetch downloads the manifest of the packages that its ranges stand for, and returns it. -/
theorem exists_of_downloaded? {ranges : Dictionary String}
    (h : c.downloaded? ranges s = some (address, d)) :
    ∃ vs s₁ s', c.versions ranges s = .ok vs s₁ ∧ c.fetch ranges s = .ok (some d) s' ∧
      address = c.addressOf vs ∧ s₁.requests.length < s'.requests.length := by
  unfold downloaded? at h
  split at h
  · rename_i vs s₁ d' s' hvs hfetch
    split at h
    · cases h
      exact ⟨vs, s₁, s', hvs, hfetch, rfl, ‹_›⟩
    · cases h
  · cases h

/-- What a fetch downloads was delivered to it. -/
theorem delivered_of_downloaded? (h : c.resolver.SparesCache) {ranges : Dictionary String}
    (hd : c.downloaded? ranges s = some (address, d)) :
    ∃ vs s₁, c.versions ranges s = .ok vs s₁ ∧ address = c.addressOf vs ∧
      c.Delivered (Dictionary.ofList vs) d.manifest s₁.requests
        (after (c.fetch ranges) s).requests := by
  obtain ⟨vs, s₁, s', hvs, hr, haddress, hrequests⟩ := exists_of_downloaded? hd
  refine ⟨vs, s₁, hvs, haddress, ?_⟩
  have hfetched := c.fetched h ranges s
  rw [after_eq_of_ok hr]
  rw [hr] at hfetched
  cases hfetched with
  | cached _ hvs' _ _ hsame =>
    cases hvs.symm.trans hvs'
    rw [hsame] at hrequests
    exact absurd hrequests (Nat.lt_irrefl _)
  | downloaded hvs' _ _ _ _ _ hdelivered =>
    cases hvs.symm.trans hvs'
    exact hdelivered

/-- A fetch changes the cache by what it downloads. -/
theorem after_fetch (c : Client) (h : c.resolver.SparesCache) (ranges : Dictionary String)
    (s : Session) :
    match c.downloaded? ranges s with
    | some (address, d) =>
      (after (c.fetch ranges) s).cache = s.cache.insert address d ∧ d.number = s.downloads ∧
        (after (c.fetch ranges) s).downloads = s.downloads + 1
    | none => SameCache s (after (c.fetch ranges) s) := by
  have hfetched := c.fetched h ranges s
  generalize hr : c.fetch ranges s = r at hfetched
  cases hfetched with
  | nothing =>
    have hnone : c.downloaded? ranges s = none := by
      unfold downloaded?
      rw [hr]
      cases c.versions ranges s <;> rfl
    rw [hnone, after_eq_of_ok hr]
    exact ⟨rfl, rfl⟩
  | unresolved hvs hsame =>
    rw [after_eq_of_error hr]
    simpa only [downloaded?, hvs] using hsame
  | cached _ hvs _ hsame hrequests =>
    rw [downloaded?_of_ok hvs hr, hrequests, if_neg (Nat.lt_irrefl _), after_eq_of_ok hr]
    exact hsame
  | refused hvs _ hsame =>
    rw [after_eq_of_error hr]
    simpa only [downloaded?, hvs, hr] using hsame
  | downloaded hvs _ hrequests hnumber hcache hdownloads =>
    rw [downloaded?_of_ok hvs hr, if_pos hrequests, after_eq_of_ok hr]
    exact ⟨hcache, hnumber, hdownloads⟩

/-- The number of the download that an event is about. -/
def Event.number? : Event → Option Nat
  | .downloaded _ d => some d.number
  | _ => none

/-- The numbers of the downloads, the last one first. -/
def History.numbers (h : History) : List Nat :=
  h.events.filterMap Event.number?

/-- The cache is what the events tell, and each download has a number of its own. -/
structure History.Told (h : History) : Prop where
  cache : ∀ address, h.session.cache.find? address = lastDownload address h.events
  nodup : h.numbers.Nodup
  lt : ∀ n ∈ h.numbers, n < h.session.downloads

/-- **One operation keeps the cache and the history in step.** -/
theorem perform_told (c : Client) (h : c.resolver.SparesCache) {before : History}
    (hb : before.Told) (op : Operation) : (c.perform before op).Told := by
  cases op with
  | fetch ranges =>
    have hafter := c.after_fetch h ranges before.session
    cases hd : c.downloaded? ranges before.session with
    | none =>
      rw [hd] at hafter
      have hperform : c.perform before (.fetch ranges) =
          ⟨after (c.fetch ranges) before.session, before.events⟩ := by
        simp only [perform, sessionAfter, event?, hd, Option.map_none, Option.toList_none,
          List.nil_append]
      rw [hperform]
      refine ⟨fun address => ?_, hb.nodup, fun n hn => ?_⟩
      · rw [hafter.1]
        exact hb.cache address
      · rw [hafter.2]
        exact hb.lt n hn
    | some found =>
      obtain ⟨a, d⟩ := found
      rw [hd] at hafter
      obtain ⟨hcache, hnumber, hdownloads⟩ := hafter
      have hperform : c.perform before (.fetch ranges) =
          ⟨after (c.fetch ranges) before.session, .downloaded a d :: before.events⟩ := by
        simp only [perform, sessionAfter, event?, hd, Option.map_some, Option.toList_some,
          List.singleton_append]
      rw [hperform]
      refine ⟨fun address => ?_, ?_, ?_⟩
      · rw [hcache, Dictionary.find?_insert, hb.cache address]
        rfl
      · -- The counter is above all numbers given out.
        refine List.nodup_cons.2 ⟨fun hmem => ?_, hb.nodup⟩
        have := hb.lt _ hmem
        omega
      · refine List.forall_mem_cons.2 ⟨?_, fun n hn => ?_⟩
        · rw [hdownloads]
          omega
        · have := hb.lt n hn
          rw [hdownloads]
          omega
  | invalidate set =>
    refine ⟨fun address => ?_, hb.nodup, hb.lt⟩
    show (before.session.cache.erase (c.storeAddress set)).find? address =
      lastDownload address (.dropped (c.storeAddress set) :: before.events)
    rw [lastDownload]
    split
    · rename_i heq
      rw [heq, Dictionary.find?_erase]
    · rename_i hne
      rw [Dictionary.find?_erase_of_ne _ (Ne.symm hne), hb.cache address]
  | clear => exact ⟨fun _ => rfl, hb.nodup, hb.lt⟩

/-- **A whole run keeps the cache and the history in step.** -/
theorem run_told (c : Client) (h : c.resolver.SparesCache) (ops : List Operation) :
    (c.run ops).Told := by
  suffices hall : ∀ before : History, before.Told → (ops.foldl c.perform before).Told from
    hall {} ⟨fun _ => rfl, List.nodup_nil, nofun⟩
  induction ops with
  | nil => exact fun _ hb => hb
  | cons op ops ih => exact fun before hb => ih _ (c.perform_told h hb op)

theorem run_concat (c : Client) (ops : List Operation) (op : Operation) :
    c.run (ops ++ [op]) = c.perform (c.run ops) op := by
  rw [run, List.foldl_append]
  rfl

theorem exists_of_mem_events {ops : List Operation} {e : Event} (he : e ∈ (c.run ops).events) :
    ∃ earlier op, earlier ++ [op] <+: ops ∧ c.event? (c.run earlier).session op = some e := by
  induction ops using List.reverseRecOn with
  | nil => cases he
  | append_singleton ops op ih =>
    rw [run_concat] at he
    obtain hlast | hbefore := List.mem_append.1 he
    · exact ⟨ops, op, List.prefix_refl _, Option.mem_toList.1 hlast⟩
    · obtain ⟨earlier, op', hprefix, hevent⟩ := ih hbefore
      exact ⟨earlier, op', hprefix.trans (List.prefix_append _ _), hevent⟩

theorem exists_of_event?_downloaded {op : Operation}
    (h : c.event? s op = some (.downloaded address d)) :
    ∃ ranges, op = .fetch ranges ∧ c.downloaded? ranges s = some (address, d) := by
  cases op with
  | fetch ranges =>
    obtain ⟨⟨a, d'⟩, hd, heq⟩ := Option.map_eq_some_iff.1 h
    cases heq
    exact ⟨ranges, rfl, hd⟩
  | invalidate set => cases h
  | clear => cases h

/-- **The cache is told by the history**, whatever network, policy and resolver a client has. What was
downloaded is what the body of the last answer encodes, which the store gave for the address or for
the place that the builder had named. A fetch that fails leaves the cache as it was, one whose manifest
it has makes no request behind the resolution and returns that very download, and one with nothing to
fetch does nothing. -/
theorem cache_told (c : Client) (h : c.resolver.SparesCache) :
    (∀ ops address,
      (c.run ops).session.cache.find? address = lastDownload address (c.run ops).events) ∧
    (∀ ops, (c.run ops).numbers.Nodup) ∧
    (∀ ops address d, .downloaded address d ∈ (c.run ops).events →
      ∃ earlier ranges vs s₁, earlier ++ [.fetch ranges] <+: ops ∧
        c.versions ranges (c.run earlier).session = .ok vs s₁ ∧ address = c.addressOf vs ∧
        c.Delivered (Dictionary.ofList vs) d.manifest s₁.requests
          (c.run (earlier ++ [.fetch ranges])).session.requests) ∧
    (∀ ranges s e s', c.fetch ranges s = .error e s' → s'.cache = s.cache) ∧
    (∀ ranges s vs s₁ d, ranges.isEmpty = false → c.versions ranges s = .ok vs s₁ →
      s.cache.find? (c.addressOf vs) = some d →
      ∃ s', c.fetch ranges s = .ok (some d) s' ∧ s'.requests = s₁.requests ∧ s'.cache = s.cache) ∧
    ∀ ranges s, ranges.isEmpty = true → c.fetch ranges s = .ok none s := by
  refine ⟨fun ops => (c.run_told h ops).cache, fun ops => (c.run_told h ops).nodup, ?_, ?_, ?_, ?_⟩
  · intro ops address d he
    obtain ⟨earlier, op, hprefix, hevent⟩ := exists_of_mem_events he
    obtain ⟨ranges, rfl, hd⟩ := exists_of_event?_downloaded hevent
    obtain ⟨vs, s₁, hvs, haddress, hdelivered⟩ := delivered_of_downloaded? h hd
    refine ⟨earlier, ranges, vs, s₁, hprefix, hvs, haddress, ?_⟩
    rw [run_concat]
    exact hdelivered
  · intro ranges s e s' hr
    have hfetched := c.fetched h ranges s
    rw [hr] at hfetched
    cases hfetched with
    | unresolved _ hsame => exact hsame.1
    | refused _ _ hsame => exact hsame.1
  · intro ranges s vs s₁ d hne hvs hcache
    have hfetched := c.fetched h ranges s
    generalize hr : c.fetch ranges s = r at hfetched
    cases hfetched with
    | nothing hempty => simp [hempty] at hne
    | unresolved hvs' => simp [hvs] at hvs'
    | cached _ hvs' hcache' hsame hrequests =>
      cases hvs.symm.trans hvs'
      cases hcache.symm.trans hcache'
      exact ⟨_, rfl, hrequests, hsame.1⟩
    | refused hvs' hcache' =>
      cases hvs.symm.trans hvs'
      cases hcache.symm.trans hcache'
    | downloaded hvs' hcache' =>
      cases hvs.symm.trans hvs'
      cases hcache.symm.trans hcache'
  · intro ranges s hempty
    simp only [fetch, hempty, if_true]
    rfl

/-- A client whose store has no manifest until it was built, which takes a second request. -/
def builtOnDemand : Client where
  network := .scripted
    [⟨.get, "https://prod-packager", [.response { status := 404, body := "" },
      .response { status := 200, body := "\x7b\x7d" }]⟩,
     ⟨.post, "https://", [.response { status := 504, body := "" },
      .response { status := 200, body := "\x7b\"url\": \"built.json\"\x7d" }]⟩]

def onePackage : PackageSet := .ofList [("a", "1.0.0")]

/-- A download, a fetch from the cache, and a second download. -/
def refetching : List Operation :=
  [.fetch onePackage, .fetch onePackage, .invalidate onePackage, .fetch onePackage]

theorem cache_told_refetching :
    builtOnDemand.resolver.SparesCache ∧
      (builtOnDemand.run refetching).session.cache.find? "v1/combinations/a@1.0.0.json" =
        lastDownload "v1/combinations/a@1.0.0.json" (builtOnDemand.run refetching).events ∧
      (lastDownload "v1/combinations/a@1.0.0.json" (builtOnDemand.run refetching).events).map
        (·.number) = some 1 ∧
      (builtOnDemand.run refetching).session.requests.length = 5 := by
  have hspares : builtOnDemand.resolver.SparesCache := sparesCache_resolve _ _
  exact ⟨hspares, (cache_told builtOnDemand hspares).1 refetching _, by decide +kernel,
    by decide +kernel⟩

end Client

end ModuleForge
